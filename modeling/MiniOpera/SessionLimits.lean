import Mathlib.Data.List.Infix
import MiniOpera.SessionShutdown

/-!
# How many peers there are

`handle` compares the number of registered peers with `maxPeers` before the handshake,
and `Register` does not compare again. Sessions that shake hands at the same time have
all passed the test for the same free place: the limit is exceeded by the number of
such sessions less one, and by no more (`maxPeers_exceeded`).
-/

namespace MiniOpera.SessionLimits
open Threads PeerSessions SessionShutdown

/-! ## What is counted -/

/-- The flag of each session, set when the session is made. -/
def trusts (s : System) : List Bool := s.sessions.map Session.trusted

/-- Registered peers that `maxPeers` is meant for. -/
def strangers (s : System) : Nat := s.set.peers.countP fun q => (trusts s)[q.2]? = some false

/-- Past the test and not registered yet. -/
def handshaking (ses : Session) : Bool := ses.pc.pending && !ses.trusted

def handshakes (s : System) : Nat := s.sessions.countP handshaking

section Counts

variable {s s' : System} {i : Nat} {ses : Session}

theorem strangers_le_len (s : System) : strangers s ≤ s.set.len := List.countP_le_length

theorem strangers_congr (hpeers : s'.set.peers = s.set.peers) (htrusts : trusts s' = trusts s) :
    strangers s' = strangers s := by
  rw [strangers, strangers, hpeers, htrusts]

theorem trusts_update {f : Session → Session} (hf : ∀ ses, (f ses).trusted = ses.trusted) :
    trusts (s.update i f) = trusts s :=
  map_modify_same fun ses _ => hf ses

theorem strangers_goto (pc : Pc) : strangers (s.goto i pc) = strangers s :=
  strangers_congr rfl (trusts_update fun _ => rfl)

theorem handshakes_update (hi : s.sessions[i]? = some ses) (f : Session → Session) :
    handshakes (s.update i f) + (handshaking ses).toNat = handshakes s +
      (handshaking (f ses)).toNat :=
  countP_modify handshaking hi

theorem handshakes_flag {f : Session → Session}
    (hf : ∀ ses, handshaking (f ses) = handshaking ses) :
    handshakes (s.update i f) = handshakes s :=
  countP_congr_map (map_modify_same fun ses _ => hf ses)

/-- `removePeer` never adds a peer. -/
theorem advances_counts {r r' : Removal} (h : Advances s r s' r') :
    strangers s' ≤ strangers s ∧ handshakes s' = handshakes s ∧ s'.maxPeers = s.maxPeers := by
  cases h with
  | absent => exact ⟨Nat.le_refl _, rfl, rfl⟩
  | found => exact ⟨Nat.le_refl _, rfl, rfl⟩
  | free => exact ⟨Nat.le_refl _, rfl, rfl⟩
  | @removed id found p set hset =>
    refine ⟨?_, handshakes_flag fun _ => rfl, rfl⟩
    have htrusts : trusts (s.update p fun ses => { ses with term := true }) = trusts s :=
      trusts_update fun _ => rfl
    show set.peers.countP (fun q =>
      (trusts (s.update p fun ses => { ses with term := true }))[q.2]? =
      some false) ≤ _
    rw [htrusts, (PeerSet.unregister_ok hset).2.2]
    exact List.filter_sublist.countP_le
  | disconnected =>
    exact ⟨Nat.le_of_eq (strangers_congr rfl (trusts_update fun _ => rfl)),
      handshakes_flag fun _ => rfl, rfl⟩

/-- A session that arrives is not in the set. -/
theorem strangers_arrive (h : Orderly s) (id : String) (trusted : Bool) :
    strangers { s with sessions := s.sessions ++ [newSession id trusted] } = strangers s := by
  refine List.countP_congr fun q hq => ?_
  obtain ⟨ses, hses, -⟩ := h.entry q.1 q.2 hq
  have hlt : q.2 < (trusts s).length := by
    rw [trusts, List.length_map]
    exact (List.getElem?_eq_some_iff.mp hses).1
  have hget : (trusts { s with sessions := s.sessions ++ [newSession id trusted] })[q.2]? =
      (trusts s)[q.2]? := by
    show (List.map _ (_ ++ _))[_]? = _
    rw [List.map_append]
    exact List.getElem?_append_left hlt
  rw [hget]

/-- A session leaves the handshake, or was not in it. -/
theorem counts_goto {pc₀ pc : Pc} (hi : s.sessionAt i pc₀ = some ses)
    (hpc : pc.pending = true → pc₀.pending = true) :
    strangers (s.goto i pc) + handshakes (s.goto i pc) ≤ strangers s + handshakes s := by
  obtain ⟨hget, rfl⟩ := sessionAt_eq hi
  have hcount := handshakes_update hget fun ses => { ses with pc := pc }
  have hle : (handshaking { ses with pc := pc }).toNat ≤ (handshaking ses).toNat := by
    cases hbefore : handshaking ses with
    | true => exact Bool.toNat_le _
    | false =>
      have hafter : handshaking { ses with pc := pc } = false := by
        rw [handshaking, Bool.and_eq_false_iff] at hbefore ⊢
        exact hbefore.imp_left fun h => Bool.eq_false_iff.mpr fun hp => by simp [hpc hp] at h
      exact Nat.le_of_eq (congrArg Bool.toNat hafter)
  rw [strangers_goto]
  show strangers s + handshakes (s.update i _) ≤ _
  omega

/-- `Register` turns a handshake into a peer. -/
theorem counts_registered {set : PeerSet} (hi : s.sessionAt i .registering = some ses)
    (hset : s.set.register ses.id i = .ok set) {t : System}
    (ht : t = { s.update i fun ses => { ses with pc := .serving, broadcast := .running } with
      set := set }) :
    strangers t + handshakes t = strangers s + handshakes s := by
  obtain ⟨hi, hpc⟩ := sessionAt_eq hi
  have hcount := handshakes_update hi fun ses => { ses with pc := .serving, broadcast := .running }
  have htrusts : trusts t = trusts s := by
    subst ht
    exact trusts_update fun _ => rfl
  have hpeers : t.set.peers = (ses.id, i) :: s.set.peers := by
    subst ht
    exact (PeerSet.register_ok hset).2.2.2
  have hflag : (trusts s)[i]? = some ses.trusted := by rw [trusts, List.getElem?_map, hi]; rfl
  have hstrangers : strangers t = strangers s + (!ses.trusted).toNat := by
    rw [strangers, hpeers, htrusts, List.countP_cons, hflag]
    cases ses.trusted <;> rfl
  have hbefore : handshaking ses = !ses.trusted := by rw [handshaking, hpc]; rfl
  have hafter : handshakes t = handshakes (s.update i fun ses =>
      { ses with pc := .serving, broadcast := .running }) := by subst ht; rfl
  have hover : (handshaking { ses with pc := .serving, broadcast := .running }).toNat = 0 := rfl
  rw [hbefore, hover] at hcount
  omega

/-- The test sees a free place, or the peer is a trusted one. -/
theorem counts_pass {action : Action} {pc₀ pc : Pc} {wg : Int}
    (hi : s.sessionAt i pc₀ = some ses)
    (h : Passes s i ses action pc₀ pc wg) :
    strangers (s.goto i pc) + handshakes (s.goto i pc) ≤ strangers s + handshakes s ∨
      strangers (s.goto i pc) < s.maxPeers := by
  cases h with
  | enter hfree =>
    rcases hfree with hfree | htrusted
    · refine .inr ?_
      rw [strangers_goto]
      exact Nat.lt_of_le_of_lt (strangers_le_len s) hfree
    · obtain ⟨hi, -⟩ := sessionAt_eq hi
      have hcount := handshakes_update hi fun ses => { ses with pc := .shaking }
      have hzero : (handshaking { ses with pc := .shaking }).toNat = 0 := by
        simp [handshaking, htrusted]
      refine .inl ?_
      rw [strangers_goto]
      show strangers s + handshakes (s.update i _) ≤ _
      omega
  | shaken => exact .inl (counts_goto hi fun _ => rfl)
  | _ => exact .inl (counts_goto hi fun hp => by cases hp)

/-- Only the test lets one more in. -/
theorem moves_counts (ho : Orderly s) {action : Action} (h : Moves s action s') :
    (strangers s' + handshakes s' ≤ strangers s + handshakes s ∧
      (s'.maxPeers = s.maxPeers ∨ s.phase = .created)) ∨
    (strangers s' < s'.maxPeers ∧ s'.maxPeers = s.maxPeers) := by
  cases h with
  | turn hturn =>
    refine .inl ⟨Nat.le_refl _, ?_⟩
    cases hturn with
    | start hphase => exact .inr hphase
    | _ => exact .inl rfl
  | @arrive id trusted =>
    have hnone : handshakes { s with sessions := s.sessions ++ [newSession id trusted] } =
        handshakes s := by
      rw [handshakes, List.countP_append]
      rfl
    exact .inl ⟨Nat.le_of_eq (by rw [strangers_arrive ho, hnone]), .inl rfl⟩
  | pass hi hpass => exact (counts_pass hi hpass).imp (⟨·, .inl rfl⟩) (⟨·, rfl⟩)
  | registered hi hset => exact .inl ⟨Nat.le_of_eq (counts_registered hi hset rfl), .inl rfl⟩
  | handled => exact .inl ⟨Nat.le_refl _, .inl rfl⟩
  | failed hi => exact .inl ⟨counts_goto hi (fun hp => by cases hp), .inl rfl⟩
  | @remove i ses r r' t hi hadv =>
    obtain ⟨hstrangers, hhandshakes, hmax⟩ := advances_counts hadv
    obtain ⟨hi, hpc⟩ := sessionAt_eq hi
    obtain ⟨ses', hi', hpc', -⟩ := hadv.same hi
    have hpending : (if r' = .finished then Pc.leaving else .removing r').pending = true →
        (Pc.removing r).pending = true := by
      split <;> exact fun hp => by cases hp
    have hgoto := counts_goto (sessionAt_of hi' (hpc'.trans hpc)) hpending
    exact .inl ⟨by omega, .inl hmax⟩
  | done hi => exact .inl ⟨counts_goto hi (fun hp => by cases hp), .inl rfl⟩
  | misbehave => exact .inl ⟨Nat.le_refl _, .inl rfl⟩
  | proceed _ hadv =>
    obtain ⟨hstrangers, hhandshakes, hmax⟩ := advances_counts hadv
    refine .inl ⟨?_, .inl hmax⟩
    show strangers _ + handshakes _ ≤ _
    exact Nat.add_le_add hstrangers (Nat.le_of_eq hhandshakes)
  | endBroadcast =>
    refine .inl ⟨Nat.le_of_eq (congrArg₂ _ ?_ (handshakes_flag fun _ => rfl)), .inl rfl⟩
    exact strangers_congr rfl (trusts_update fun _ => rfl)
  | closePeers =>
    refine .inl ⟨Nat.le_of_eq (congrArg₂ _ ?_ ?_), .inl rfl⟩
    · exact strangers_congr rfl (disconnectPeers_map fun _ => rfl)
    · exact countP_congr_map (disconnectPeers_map fun _ => rfl)

end Counts

/-! ## Runs -/

/-- What holds as long as at most `k` sessions shake hands at a time. -/
structure Limited (k : Nat) (s : System) : Prop where
  orderly : Orderly s
  created : s.phase = .created → s.maxPeers = 0
  bound : strangers s + handshakes s ≤ s.maxPeers + (k - 1)

section Runs

variable {s s' : System} {k : Nat}

/-- `Start` is called once. -/
theorem moves_created {action : Action} (h : Moves s action s') (hphase : s'.phase = .created) :
    s.phase = .created ∧ s'.maxPeers = s.maxPeers := by
  cases h with
  | turn hturn => cases hturn <;> cases hphase
  | remove _ hadv =>
    exact ⟨(advances_phase hadv).symm.trans hphase, (advances_counts hadv).2.2⟩
  | proceed _ hadv =>
    exact ⟨(advances_phase hadv).symm.trans hphase, (advances_counts hadv).2.2⟩
  | closePeers => cases hphase
  | _ => exact ⟨hphase, rfl⟩

theorem limited_init : Limited k System.init :=
  ⟨orderly_init, fun _ => rfl, Nat.zero_le _⟩

theorem step_limited (h : Limited k s) (hk : handshakes s' ≤ k) {action : Action}
    (hstep : s.step action = some s') : Limited k s' := by
  have hmove := step_moves hstep
  refine ⟨moves_orderly h.orderly hmove, fun hphase => ?_, ?_⟩
  · obtain ⟨hcreated, hmax⟩ := moves_created hmove hphase
    rw [hmax]
    exact h.created hcreated
  · have hbound := h.bound
    rcases moves_counts h.orderly hmove with ⟨hle, hmax | hcreated⟩ | ⟨hfree, hmax⟩
    · omega
    · have := h.created hcreated
      omega
    · omega

/-- In every interleaving in which at most `k` sessions shake hands at a time, there are
never more than `maxPeers + (k - 1)` registered peers that are not trusted. -/
theorem maxPeers_exceeded {l : List Action} (h : run System.step System.init l = some s)
    (hk : ∀ before, before <+: l → ∀ t, run System.step System.init before = some t →
      handshakes t ≤ k) : strangers s ≤ s.maxPeers + (k - 1) := by
  have hlimited := run_keeps_while (fun _ _ _ hs hP hstep => step_limited hs hP hstep) hk
    limited_init h
  have := hlimited.bound
  omega

/-- Two sessions for one place. -/
def crowd : List Action :=
  [.start 1, .arrive "a" false, .announce 0, .count 0, .arrive "b" false, .announce 1, .count 1,
    .check 0, .check 1, .shaken 0 true, .shaken 1 true, .register 0, .register 1]

/-- The bound is reached: two peers with `maxPeers = 1`. -/
theorem maxPeers_exceeded_crowd :
    ∃ s, run System.step System.init crowd = some s ∧ s.maxPeers = 1 ∧ strangers s = 2 ∧
      strangers s ≤ s.maxPeers + (2 - 1) := by
  have hcounts : (run System.step System.init crowd).map (fun s => (s.maxPeers, strangers s)) =
      some (1, 2) := by decide +kernel
  have hk : ∀ before ∈ crowd.inits,
      ((run System.step System.init before).map handshakes).getD 0 ≤ 2 := by decide +kernel
  obtain ⟨s, hs, heq⟩ := Option.map_eq_some_iff.mp hcounts
  obtain ⟨hmax, hstrangers⟩ := Prod.mk.inj heq
  refine ⟨s, hs, hmax, hstrangers, maxPeers_exceeded hs fun before hbefore t ht => ?_⟩
  have := hk before ((List.mem_inits _ _).mpr hbefore)
  rwa [ht] at this

end Runs

end MiniOpera.SessionLimits
