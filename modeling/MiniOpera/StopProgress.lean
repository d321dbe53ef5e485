import MiniOpera.SessionShutdown

/-!
# Whether `Stop` returns

`Stop` waits for every session that was counted, and a session ends when its
connection does. `Close` disconnects the peers of the set; a peer that was taken out of
the set before is disconnected by the `removePeer` that took it out, provided that this
call had found the same peer. `removePeer` looks the ID up twice, in `peers.Peer` and in
`Unregister`: after a reconnect in between it disconnects the old peer and takes out the
new one, whose session then goes on for as long as the other node likes
(`stop_returns_iff`). Without a reconnect `Stop` needs no help (`stop_returns`).
-/

namespace MiniOpera.StopProgress
open Threads PeerSessions SessionShutdown

/-! ## Peers that will be disconnected -/

/-- The peer that a `removePeer` under way is going to disconnect. -/
def found : Removal → Option Nat
  | .unregister _ p => some p
  | .disconnect p => some p
  | .lookup _ => none
  | .finished => none

def Found (s : System) (i : Nat) : Prop :=
  (∃ r ∈ s.removals, found r = some i) ∨
    ∃ ses ∈ s.sessions, ∃ r, ses.pc = .removing r ∧ found r = some i

/-- `Close` or a `removePeer` ends the connection, or one of them has. -/
def Held (s : System) (i : Nat) (ses : Session) : Prop :=
  (ses.id, i) ∈ s.set.peers ∨ ses.disconnected = true ∨ Found s i

/-- The steps when the other nodes stay: a connection ends by `Disconnect` only. -/
def stay (s : System) : Action → Option System
  | .message i false =>
    if s.sessions[i]?.map Session.disconnected = some true then s.step (.message i false) else none
  | action => s.step action

section Steps

variable {s s' t : System} {i j k : Nat} {ses : Session} {r r' : Removal} {action : Action}

theorem stay_moves (h : stay s action = some s') :
    Moves s action s' ∧
      ∀ i, action = .message i false → s.sessions[i]?.map Session.disconnected = some true := by
  unfold stay at h
  split at h
  · next i =>
    obtain ⟨hcut, hstep⟩ := Option.ite_none_right_eq_some.mp h
    refine ⟨step_moves hstep, fun j hj => ?_⟩
    cases hj
    exact hcut
  · next hother => exact ⟨step_moves h, fun j hj => absurd hj (hother j)⟩

theorem update_get (hi : s.sessions[i]? = some ses) (k : Nat) (f : Session → Session) :
    (s.update k f).sessions[i]? = some (if i = k then f ses else ses) := by
  split
  · next heq =>
    subst heq
    exact modify_self hi
  · next hne => exact (modify_of_ne hne).trans hi

/-- The session whose control point an action moves. -/
def mover : Action → Option Nat
  | .announce i | .seeQuit i | .count i | .check i | .shaken i _ | .register i | .message i _
  | .remove i | .done i => some i
  | _ => none

theorem passes_mover {pc₀ pc : Pc} {wg : Int} (h : Passes s i ses action pc₀ pc wg) :
    mover action = some i := by
  cases h <;> rfl

/-- What an action leaves of a session. -/
structure Follows (action : Action) (i : Nat) (ses ses' : Session) : Prop where
  id : ses'.id = ses.id
  cut : ses.disconnected = true → ses'.disconnected = true
  pc : mover action ≠ some i → ses'.pc = ses.pc

theorem Follows.rfl {action : Action} {i : Nat} {ses : Session} : Follows action i ses ses :=
  ⟨.refl _, fun h => h, fun _ => .refl _⟩

theorem Follows.trans {a b c : Session} (hab : Follows action i a b) (hbc : Follows action i b c) :
    Follows action i a c :=
  ⟨hbc.id.trans hab.id, fun h => hbc.cut (hab.cut h), fun h => (hbc.pc h).trans (hab.pc h)⟩

theorem advances_follows (hadv : Advances s r t r') (hi : s.sessions[i]? = some ses) :
    ∃ ses', t.sessions[i]? = some ses' ∧ ∀ action, Follows action i ses ses' := by
  have hflag : ∀ {p : Nat} {f : Session → Session}, (∀ ses, (f ses).id = ses.id) →
      (∀ ses, (f ses).pc = ses.pc) → (∀ ses, ses.disconnected = true →
        (f ses).disconnected = true) →
      ∃ ses', (s.update p f).sessions[i]? = some ses' ∧
        ∀ action, Follows action i ses ses' := by
    intro p f hid hpc hcut
    refine ⟨_, update_get hi p f, fun action => ?_⟩
    split
    · exact ⟨hid ses, hcut ses, fun _ => hpc ses⟩
    · exact Follows.rfl
  cases hadv with
  | absent => exact ⟨ses, hi, fun _ => Follows.rfl⟩
  | found => exact ⟨ses, hi, fun _ => Follows.rfl⟩
  | free => exact ⟨ses, hi, fun _ => Follows.rfl⟩
  | removed => exact hflag (fun _ => rfl) (fun _ => rfl) (fun _ => id)
  | disconnected => exact hflag (fun _ => rfl) (fun _ => rfl) (fun _ _ => rfl)

theorem moves_follows (hmove : Moves s action s') (hi : s.sessions[i]? = some ses) :
    ∃ ses', s'.sessions[i]? = some ses' ∧ Follows action i ses ses' := by
  have hgoto : ∀ {s : System} {ses : Session} {k : Nat} {pc : Pc}, s.sessions[i]? = some ses →
      mover action = some k → ∃ ses', (s.goto k pc).sessions[i]? = some ses' ∧
        Follows action i ses ses' := by
    intro s ses k pc hi hk
    refine ⟨_, update_get hi k _, ?_⟩
    split
    · next heq => exact ⟨rfl, id, fun hne => absurd (heq ▸ hk) hne⟩
    · exact Follows.rfl
  cases hmove with
  | turn => exact ⟨ses, hi, Follows.rfl⟩
  | arrive =>
    obtain ⟨hlt, -⟩ := List.getElem?_eq_some_iff.mp hi
    exact ⟨ses, (List.getElem?_append_left hlt).trans hi, Follows.rfl⟩
  | pass _ hpass => exact hgoto hi (passes_mover hpass)
  | registered =>
    refine ⟨_, update_get hi _ _, ?_⟩
    split
    · next heq => exact ⟨rfl, id, fun hne => absurd (congrArg some heq.symm) hne⟩
    · exact Follows.rfl
  | handled => exact ⟨ses, hi, Follows.rfl⟩
  | failed => exact hgoto hi rfl
  | remove _ hadv =>
    obtain ⟨ses', hi', hfollows⟩ := advances_follows hadv hi
    obtain ⟨ses'', hi'', hfollows'⟩ := hgoto hi' rfl
    exact ⟨ses'', hi'', (hfollows _).trans hfollows'⟩
  | done => exact hgoto hi rfl
  | misbehave => exact ⟨ses, hi, Follows.rfl⟩
  | proceed _ hadv =>
    obtain ⟨ses', hi', hfollows⟩ := advances_follows hadv hi
    exact ⟨ses', hi', hfollows _⟩
  | endBroadcast =>
    refine ⟨_, update_get hi _ _, ?_⟩
    split
    · exact ⟨rfl, id, fun _ => rfl⟩
    · exact Follows.rfl
  | closePeers =>
    refine ⟨_, (disconnectPeers_get s i).trans (by rw [hi]; rfl), ?_⟩
    dsimp only
    split
    · exact ⟨rfl, fun _ => rfl, fun _ => rfl⟩
    · exact Follows.rfl

theorem advances_length (h : Advances s r t r') : t.sessions.length = s.sessions.length := by
  cases h with
  | removed => exact List.length_modify _ _ _
  | disconnected => exact List.length_modify _ _ _
  | _ => rfl

/-- A session of the next state was there before, or has just come. -/
theorem moves_session {ses' : Session} (hmove : Moves s action s')
    (hi' : s'.sessions[i]? = some ses') :
    (∃ ses, s.sessions[i]? = some ses ∧ Follows action i ses ses') ∨
      ∃ id trusted, ses' = newSession id trusted := by
  have hkept : i < s.sessions.length → ∃ ses, s.sessions[i]? = some ses ∧
      Follows action i ses ses' := by
    intro hlt
    obtain ⟨ses'', hi'', hfollows⟩ := moves_follows hmove (List.getElem?_eq_getElem hlt)
    rw [hi'] at hi''
    cases hi''
    exact ⟨_, List.getElem?_eq_getElem hlt, hfollows⟩
  obtain ⟨hlt, -⟩ := List.getElem?_eq_some_iff.mp hi'
  cases hmove with
  | arrive =>
    rcases snoc_cases hi' with ⟨-, rfl⟩ | ⟨hlt, -⟩
    · exact .inr ⟨_, _, rfl⟩
    · exact .inl (hkept hlt)
  | pass => exact .inl (hkept (by rwa [← List.length_modify _ s.sessions]))
  | registered => exact .inl (hkept (by rwa [← List.length_modify _ s.sessions]))
  | failed => exact .inl (hkept (by rwa [← List.length_modify _ s.sessions]))
  | remove _ hadv =>
    refine .inl (hkept ?_)
    rwa [← advances_length hadv, ← List.length_modify]
  | done => exact .inl (hkept (by rwa [← List.length_modify _ s.sessions]))
  | proceed _ hadv => exact .inl (hkept (by rwa [← advances_length hadv]))
  | endBroadcast => exact .inl (hkept (by rwa [← List.length_modify _ s.sessions]))
  | closePeers => exact .inl (hkept (by rwa [← List.length_mapIdx]))
  | _ => exact .inl (hkept hlt)

theorem goto_pc {pc : Pc} (h : (s.goto i pc).sessions[i]? = some ses) : ses.pc = pc := by
  obtain ⟨-, a, -, rfl⟩ | ⟨hne, -⟩ := modify_cases h
  · rfl
  · exact absurd rfl hne

/-- What the session that an action moves does. -/
inductive Goes (s : System) (action : Action) (s' : System) (i : Nat) (ses ses' : Session) : Prop
  | outside (hearly : ses.pc.early = true) (hidle : ses'.pc.busy = false)
  | registers (hpc : ses.pc = .registering) (hserves : ses'.pc = .serving)
      (hopen : s.set.closed = false) (hlisted : (ses.id, i) ∈ s'.set.peers)
  | handles (hpc : ses.pc = .serving) (hsame : s' = s)
  | fails (hpc : ses.pc = .serving) (hremoves : ses'.pc = .removing (.lookup ses.id))
      (haction : action = .message i false)
  | removes {r r' : Removal} {t : System} (hpc : ses.pc = .removing r) (hadv : Advances s r t r')
      (heq : s' = t.goto i (if r' = .finished then .leaving else .removing r'))
      (hnext : ses'.pc = if r' = .finished then .leaving else .removing r')
  | ends (hpc : ses.pc = .leaving) (hgone : ses'.pc = .gone)

theorem moves_goes (hmove : Moves s action s') (hmover : mover action = some i)
    (hi : s.sessions[i]? = some ses) {ses' : Session} (hi' : s'.sessions[i]? = some ses') :
    Goes s action s' i ses ses' := by
  have hat : ∀ {k : Nat} {pc : Pc} {a : Session}, some k = some i →
    s.sessionAt k pc = some a →
      ses = a ∧ ses.pc = pc := by
    intro k pc a hk ha
    cases hk
    obtain ⟨hk, rfl⟩ := sessionAt_eq ha
    rw [hi] at hk
    cases hk
    exact ⟨rfl, rfl⟩
  cases hmove with
  | turn hturn => cases hturn <;> cases hmover
  | pass ha hpass =>
    have hk := (passes_mover hpass).symm.trans hmover
    obtain ⟨-, rfl⟩ := hat hk ha
    cases hk
    exact .outside hpass.early ((congrArg Pc.busy (goto_pc hi')).trans hpass.idle)
  | registered ha hset =>
    obtain ⟨rfl, hpc⟩ := hat hmover ha
    cases hmover
    obtain ⟨hopen, -, -, hpeers⟩ := PeerSet.register_ok hset
    obtain ⟨-, a, -, rfl⟩ | ⟨hne, -⟩ := modify_cases hi'
    · refine .registers hpc rfl hopen ?_
      show _ ∈ PeerSet.peers _
      rw [hpeers]
      exact List.mem_cons_self
    · exact absurd rfl hne
  | handled ha => exact .handles (hat hmover ha).2 rfl
  | failed ha =>
    obtain ⟨rfl, hpc⟩ := hat hmover ha
    cases hmover
    exact .fails hpc (goto_pc hi') rfl
  | remove ha hadv =>
    obtain ⟨-, hpc⟩ := hat hmover ha
    cases hmover
    exact .removes hpc hadv rfl (goto_pc hi')
  | done ha =>
    obtain ⟨-, hpc⟩ := hat hmover ha
    cases hmover
    exact .ends hpc (goto_pc hi')
  | arrive => cases hmover
  | misbehave => cases hmover
  | proceed => cases hmover
  | endBroadcast => cases hmover
  | closePeers => cases hmover

/-- A session in its `removePeer` stays there, or takes a step of it. -/
theorem moves_removing (hmove : Moves s action s') (hj : s.sessions[j]? = some ses)
    (hpc : ses.pc = .removing r) :
    (∃ ses', s'.sessions[j]? = some ses' ∧ ses'.pc = .removing r) ∨
      ∃ t r', Advances s r t r' ∧ s' = t.goto j
        (if r' = .finished then .leaving else .removing r') := by
  obtain ⟨ses', hj', hfollows⟩ := moves_follows hmove hj
  by_cases hmover : mover action = some j
  · cases moves_goes hmove hmover hj hj' with
    | outside hearly =>
      rw [hpc] at hearly
      cases hearly
    | registers h => cases hpc.symm.trans h
    | handles h => cases hpc.symm.trans h
    | fails h => cases hpc.symm.trans h
    | removes h hadv heq =>
      cases hpc.symm.trans h
      exact .inr ⟨_, _, hadv, heq⟩
    | ends h => cases hpc.symm.trans h
  · exact .inl ⟨ses', hj', (hfollows.pc hmover).trans hpc⟩

/-- Once the set is closed, no session begins to serve. -/
theorem moves_serving {ses' : Session} (hmove : Moves s action s')
    (hi' : s'.sessions[i]? = some ses')
    (hpc : ses'.pc = .serving) (hclosed : s.set.closed = true) :
    ∃ ses, s.sessions[i]? = some ses ∧ ses.pc = .serving ∧ Follows action i ses ses' := by
  rcases moves_session hmove hi' with ⟨ses, hi, hfollows⟩ | ⟨id, trusted, rfl⟩
  · refine ⟨ses, hi, ?_, hfollows⟩
    by_cases hmover : mover action = some i
    · cases moves_goes hmove hmover hi hi' with
      | outside _ hidle =>
        rw [hpc] at hidle
        cases hidle
      | registers _ _ hopen =>
        rw [hopen] at hclosed
        cases hclosed
      | handles h => exact h
      | fails h => exact h
      | removes _ _ _ hnext =>
        rw [hpc] at hnext
        split at hnext <;> cases hnext
      | ends _ hgone => cases hpc.symm.trans hgone
    · exact (hfollows.pc hmover).symm.trans hpc
  · cases hpc

/-! ## What holds in every run -/

structure Wound (s : System) : Prop where
  orderly : Orderly s
  going : ∀ (i : Nat) (ses : Session), s.sessions[i]? = some ses →
    ses.pc ≠ .removing .finished
  /-- `Close` has disconnected what is left in the set. -/
  cut : s.set.closed = true → ∀ (i : Nat) (ses : Session), s.sessions[i]? = some ses →
    (ses.id, i) ∈ s.set.peers → ses.disconnected = true

theorem advances_peers (h : Advances s r t r') {q : String × Nat} (hq : q ∈ t.set.peers) :
    q ∈ s.set.peers := by
  cases h with
  | removed hset =>
    have hq : q ∈ PeerSet.peers _ := hq
    rw [(PeerSet.unregister_ok hset).2.2] at hq
    exact (List.mem_filter.mp hq).1
  | _ => exact hq

/-- The set grows by `Register` only. -/
theorem moves_peers (hmove : Moves s action s') {q : String × Nat} (hq : q ∈ s'.set.peers) :
    q ∈ s.set.peers ∨ s.set.closed = false ∧ ∃ ses,
      s.sessionAt q.2 .registering = some ses := by
  cases hmove with
  | @registered i ses set hat hset =>
    have hq : q ∈ set.peers := hq
    obtain ⟨hopen, -, -, hpeers⟩ := PeerSet.register_ok hset
    rw [hpeers, List.mem_cons] at hq
    rcases hq with rfl | hq
    · exact .inr ⟨hopen, ses, hat⟩
    · exact .inl hq
  | remove _ hadv => exact .inl (advances_peers hadv hq)
  | proceed _ hadv => exact .inl (advances_peers hadv hq)
  | _ => exact .inl hq

theorem advances_closed (hadv : Advances s r t r') : t.set.closed = s.set.closed := by
  cases hadv with
  | removed hset => exact (PeerSet.unregister_ok hset).2.1
  | _ => rfl

/-- The set is closed by `Close` only, and stays closed. -/
theorem moves_closed (hmove : Moves s action s') :
    s'.set.closed = s.set.closed ∨ action = .closePeers ∧ s'.set.closed = true := by
  cases hmove with
  | registered _ hset =>
    obtain ⟨hbefore, -, hafter, -⟩ := PeerSet.register_ok hset
    exact .inl (hafter.trans hbefore.symm)
  | remove _ hadv => exact .inl ((advances_closed hadv).trans rfl)
  | proceed _ hadv => exact .inl ((advances_closed hadv).trans rfl)
  | closePeers => exact .inr ⟨rfl, rfl⟩
  | _ => exact .inl rfl

theorem moves_going (h : ∀ (i : Nat) (ses : Session), s.sessions[i]? = some ses →
    ses.pc ≠ .removing .finished)
    (hmove : Moves s action s') {ses' : Session} (hi' : s'.sessions[i]? = some ses') :
    ses'.pc ≠ .removing .finished := by
  intro hover
  rcases moves_session hmove hi' with ⟨ses, hi, hfollows⟩ | ⟨id, trusted, rfl⟩
  · by_cases hmover : mover action = some i
    · cases moves_goes hmove hmover hi hi' with
      | outside _ hidle =>
        rw [hover] at hidle
        cases hidle
      | registers _ hserves => cases hover.symm.trans hserves
      | handles _ hsame =>
        subst hsame
        exact h i ses' hi' hover
      | fails _ hremoves => cases hover.symm.trans hremoves
      | removes _ _ _ hnext =>
        rw [hover] at hnext
        split at hnext
        · cases hnext
        · next hne =>
          cases hnext
          exact hne rfl
      | ends _ hgone => cases hover.symm.trans hgone
    · exact h i ses hi ((hfollows.pc hmover).symm.trans hover)
  · cases hover

theorem moves_wound (h : Wound s) (hmove : Moves s action s') : Wound s' := by
  refine ⟨moves_orderly h.orderly hmove, fun i ses hi => moves_going h.going hmove hi, ?_⟩
  intro hclosed i ses' hi' hlisted
  rcases moves_closed hmove with hbefore | ⟨rfl, -⟩
  · rw [hbefore] at hclosed
    have hopen : (ses'.id, i) ∈ s.set.peers := by
      refine (moves_peers hmove hlisted).resolve_right fun hreg => ?_
      rw [hreg.1] at hclosed
      cases hclosed
    rcases moves_session hmove hi' with ⟨ses, hi, hfollows⟩ | ⟨id, trusted, rfl⟩
    · rw [hfollows.id] at hopen
      exact hfollows.cut (h.cut hclosed i ses hi hopen)
    · -- a session that has just come is not in the set
      exact absurd hlisted (((moves_orderly h.orderly hmove).session i _ hi').not_listed rfl)
  · cases hmove with
    | turn hturn => cases hturn
    | pass _ hpass => cases hpass
    | closePeers =>
      rw [disconnectPeers_get] at hi'
      obtain ⟨ses, -, rfl⟩ := Option.map_eq_some_iff.mp hi'
      split
      · rfl
      · next hnot =>
        rw [if_neg hnot] at hlisted
        exact absurd hlisted hnot

theorem wound_init : Wound System.init where
  orderly := orderly_init
  going i ses hi := by cases hi
  cut hclosed := by cases hclosed

/-! ## A peer that is found is disconnected -/

theorem advances_removals (h : Advances s r t r') : t.removals = s.removals := by
  cases h <;> rfl

theorem advances_found (hadv : Advances s r t r') (hr : found r = some i) :
    found r' = some i ∨ ∀ ses', t.sessions[i]? = some ses' → ses'.disconnected = true := by
  cases hadv with
  | absent => cases hr
  | found => cases hr
  | free => exact .inl hr
  | removed => exact .inl hr
  | disconnected =>
    cases hr
    refine .inr fun ses' hi' => ?_
    obtain ⟨-, a, -, rfl⟩ | ⟨hne, -⟩ := modify_cases hi'
    · rfl
    · exact absurd rfl hne

theorem moves_removals (hmove : Moves s action s') (hk : s.removals[k]? = some r) :
    s'.removals[k]? = some r ∨
      ∃ t r', Advances s r t r' ∧ s' = { t with removals := t.removals.set k r' } := by
  cases hmove with
  | remove _ hadv => exact .inl ((congrArg (·[k]?) (advances_removals hadv)).trans hk)
  | misbehave =>
    obtain ⟨hlt, -⟩ := List.getElem?_eq_some_iff.mp hk
    exact .inl ((List.getElem?_append_left hlt).trans hk)
  | @proceed m r₀ r' t hm hadv =>
    by_cases hne : m = k
    · subst hne
      rw [hm] at hk
      cases hk
      exact .inr ⟨t, r', hadv, rfl⟩
    · refine .inl ?_
      show (t.removals.set m r')[k]? = _
      rw [List.getElem?_set_ne hne, advances_removals hadv]
      exact hk
  | _ => exact .inl hk

theorem moves_found (hmove : Moves s action s') (hfound : Found s i) :
    Found s' i ∨ ∀ ses', s'.sessions[i]? = some ses' → ses'.disconnected = true := by
  rcases hfound with ⟨r, hmem, hr⟩ | ⟨ses, hmem, r, hpc, hr⟩
  · obtain ⟨k, hk⟩ := List.mem_iff_getElem?.mp hmem
    rcases moves_removals hmove hk with hk' | ⟨t, r', hadv, rfl⟩
    · exact .inl (.inl ⟨r, List.mem_of_getElem? hk', hr⟩)
    · obtain ⟨hlt, -⟩ := List.getElem?_eq_some_iff.mp hk
      refine (advances_found hadv hr).imp_left fun hr' => .inl ⟨r', ?_, hr'⟩
      exact List.mem_set (by rwa [advances_removals hadv]) _
  · obtain ⟨j, hj⟩ := List.mem_iff_getElem?.mp hmem
    rcases moves_removing hmove hj hpc with ⟨ses', hj', hpc'⟩ | ⟨t, r', hadv, rfl⟩
    · exact .inl (.inr ⟨ses', List.mem_of_getElem? hj', r, hpc', hr⟩)
    · obtain ⟨ses', hj', -⟩ := hadv.same hj
      rcases advances_found hadv hr with hr' | hcut
      · have hne : r' ≠ .finished := by
          rintro rfl
          cases hr'
        rw [if_neg hne]
        exact .inl (.inr ⟨_, List.mem_of_getElem? (modify_self hj'), r', rfl, hr'⟩)
      · refine .inr fun ses'' hi'' => ?_
        obtain ⟨rfl, a, ha, rfl⟩ | ⟨-, hi⟩ := modify_cases hi''
        · exact hcut a ha
        · exact hcut ses'' hi

/-- The connection of every session that serves is going to end. -/
def AllHeld (s : System) : Prop :=
  ∀ (i : Nat) (ses : Session), s.sessions[i]? = some ses → ses.pc = .serving → Held s i ses

theorem moves_held (h : Wound s) (hclosed : s.set.closed = true) (hheld : AllHeld s)
    (hmove : Moves s action s') : AllHeld s' := by
  intro i ses' hi' hpc'
  obtain ⟨ses, hi, hpc, hfollows⟩ := moves_serving hmove hi' hpc' hclosed
  rcases hheld i ses hi hpc with hlisted | hcut | hfound
  · exact .inr (.inl (hfollows.cut (h.cut hclosed i ses hi hlisted)))
  · exact .inr (.inl (hfollows.cut hcut))
  · rcases moves_found hmove hfound with hfound' | hcut
    · exact .inr (.inr hfound')
    · exact .inr (.inl (hcut ses' hi'))

/-! ## A measure -/

def removalRank : Removal → Nat
  | .lookup _ => 3
  | .unregister _ _ => 2
  | .disconnect _ => 1
  | .finished => 0

/-- How far a session that is counted is from its end. -/
def rank : Pc → Nat
  | .announcing => 0
  | .accepted => 0
  | .entering => 8
  | .shaking => 7
  | .registering => 6
  | .serving => 5
  | .removing r => removalRank r + 1
  | .leaving => 1
  | .gone => 0

def distance (s : System) : Nat :=
  weigh (fun ses => rank ses.pc) s.sessions + weigh removalRank s.removals +
    if s.phase = .returned then 0 else 1

theorem advances_ranks (h : Advances s r t r') :
    weigh (fun ses => rank ses.pc) t.sessions = weigh (fun ses => rank ses.pc) s.sessions ∧
      removalRank r' < removalRank r := by
  cases h with
  | absent => exact ⟨rfl, by simp [removalRank]⟩
  | found => exact ⟨rfl, by simp [removalRank]⟩
  | free => exact ⟨rfl, by simp [removalRank]⟩
  | removed => exact ⟨weigh_congr (map_modify_same fun _ _ => rfl), by simp [removalRank]⟩
  | disconnected => exact ⟨weigh_congr (map_modify_same fun _ _ => rfl), by simp [removalRank]⟩

theorem distance_goto {pc : Pc} (hi : s.sessions[i]? = some ses) (hlt : rank pc < rank ses.pc)
    (ht : t.sessions = (s.goto i pc).sessions) (hremovals : t.removals = s.removals)
    (hphase : t.phase = s.phase) : distance t < distance s := by
  have hweigh : weigh _ (s.goto i pc).sessions + _ = _ :=
    weigh_modify (f := fun ses => { ses with pc := pc }) (fun ses => rank ses.pc) hi
  rw [distance, distance, ht, hremovals, hphase]
  dsimp only at hweigh
  omega

/-- A `removePeer` under way can go on. -/
theorem advance_total (hr : r ≠ .finished) : ∃ t r', s.advance r = some (t, r') := by
  cases r with
  | lookup id =>
    simp only [System.advance]
    split <;> exact ⟨_, _, rfl⟩
  | unregister id p =>
    simp only [System.advance]
    split <;> exact ⟨_, _, rfl⟩
  | disconnect p => exact ⟨_, _, rfl⟩
  | finished => exact absurd rfl hr

theorem step_of_move (h : Orderly s) (hmove : s.move action = some s') :
    s.step action = some s' := by
  rw [System.step, h.fine]
  exact hmove

/-- A session that is counted and does not serve can take a step towards its end. -/
theorem counted_step (h : Wound s) (hclosed : s.set.closed = true) (hi : s.sessions[i]? = some ses)
    (hcounted : ses.pc.counted = true) (hpc : ses.pc ≠ .serving) :
    ∃ action s', stay s action = some s' ∧ distance s' < distance s := by
  have hstep : ∀ {action : Action} {s' : System}, s.move action = some s' →
      s.step action = some s' := fun hmove => step_of_move h.orderly hmove
  cases heq : ses.pc with
  | announcing => rw [heq] at hcounted; cases hcounted
  | accepted => rw [heq] at hcounted; cases hcounted
  | entering =>
    have hat := sessionAt_of hi heq
    refine ⟨.check i, _, hstep (by simp only [System.move]; rw [hat]; rfl), ?_⟩
    dsimp only
    split
    · exact distance_goto hi (by rw [heq]; decide) rfl rfl rfl
    · exact distance_goto hi (by rw [heq]; decide) rfl rfl rfl
  | shaking =>
    have hat := sessionAt_of hi heq
    refine ⟨.shaken i false, _, hstep (by simp only [System.move]; rw [hat]; rfl), ?_⟩
    exact distance_goto hi (by rw [heq]; decide) rfl rfl rfl
  | registering =>
    have hat := sessionAt_of hi heq
    refine ⟨.register i, _, hstep (by simp only [System.move]; rw [hat]; rfl), ?_⟩
    have hrefused : s.set.register ses.id i = .error .closed := if_pos hclosed
    dsimp only
    rw [hrefused]
    exact distance_goto hi (by rw [heq]; decide) rfl rfl rfl
  | serving => exact absurd heq hpc
  | removing r =>
    obtain ⟨t, r', hadv⟩ := advance_total (s := s) (r := r) fun hr =>
      h.going i ses hi (hr ▸ heq)
    have hmove : s.move (.remove i) = some
        (t.goto i (if r' = .finished then .leaving else .removing r')) := by
      simp only [System.move]
      rw [hi]
      dsimp only
      rw [heq]
      dsimp only
      rw [hadv]
      rfl
    refine ⟨.remove i, _, hstep hmove, ?_⟩
    have hadvances := advance_advances hadv
    obtain ⟨ses', hi', hpc', -⟩ := hadvances.same hi
    obtain ⟨hranks, hlt⟩ := advances_ranks hadvances
    have hless : rank (if r' = .finished then .leaving else .removing r') < rank ses'.pc := by
      rw [hpc', heq]
      split
      · next hover =>
        subst hover
        exact Nat.succ_lt_succ hlt
      · exact Nat.succ_lt_succ hlt
    have hgoto := distance_goto hi' hless rfl rfl rfl
    have hsame : distance t = distance s := by
      rw [distance, distance, hranks, advances_removals hadvances, advances_phase hadvances]
    exact hsame ▸ hgoto
  | leaving =>
    have hat := sessionAt_of hi heq
    refine ⟨.done i, _, hstep (by simp only [System.move]; rw [hat]; rfl), ?_⟩
    exact distance_goto hi (by rw [heq]; decide) rfl rfl rfl
  | gone => rw [heq] at hcounted; cases hcounted

/-- A session that serves leads on: its connection is closed, or a `removePeer` closes it. -/
theorem serving_step (h : Wound s) (hclosed : s.set.closed = true) (hi : s.sessions[i]? = some ses)
    (hpc : ses.pc = .serving) (hheld : Held s i ses)
    (hidle : ∀ (j : Nat) (ses' : Session), s.sessions[j]? = some ses' →
      ses'.pc.counted = true →
      ses'.pc = .serving) :
    ∃ action s', stay s action = some s' ∧ distance s' < distance s := by
  have hcut : ses.disconnected = true →
      ∃ action s', stay s action = some s' ∧ distance s' < distance s := by
    intro hcut
    have hat := sessionAt_of hi hpc
    refine ⟨.message i false, s.goto i (.removing (.lookup ses.id)), ?_, ?_⟩
    · refine Option.ite_none_right_eq_some.mpr ⟨by rw [hi, Option.map_some, hcut], ?_⟩
      refine step_of_move h.orderly ?_
      simp only [System.move]
      rw [hat]
      rfl
    · exact distance_goto hi (by rw [hpc]; simp [rank, removalRank]) rfl rfl rfl
  rcases hheld with hlisted | hdisconnected | ⟨r, hmem, hr⟩ | ⟨ses', hmem, r, hpc', -⟩
  · exact hcut (h.cut hclosed i ses hi hlisted)
  · exact hcut hdisconnected
  · -- the other `removePeer` goes on
    obtain ⟨k, hk⟩ := List.mem_iff_getElem?.mp hmem
    obtain ⟨t, r', hadv⟩ := advance_total (s := s) (r := r) (by rintro rfl; cases hr)
    have hmove : s.move (.proceed k) = some { t with removals := t.removals.set k r' } := by
      simp only [System.move]
      rw [hk]
      dsimp only
      rw [hadv]
      rfl
    refine ⟨.proceed k, _, step_of_move h.orderly hmove, ?_⟩
    have hadvances := advance_advances hadv
    obtain ⟨hranks, hlt⟩ := advances_ranks hadvances
    have hweigh := weigh_modify (f := fun _ => r') removalRank hk
    show weigh _ t.sessions + weigh _ (t.removals.set k r') + (if t.phase = _ then _ else _) < _
    rw [hranks, advances_removals hadvances, advances_phase hadvances, List.set_eq_modify, distance]
    omega
  · obtain ⟨j, hj⟩ := List.mem_iff_getElem?.mp hmem
    cases hpc'.symm.trans (hidle j ses' hj (by rw [hpc']; rfl))

/-- After `Close`, with every connection about to end. -/
structure Winding (s : System) : Prop where
  wound : Wound s
  phase : s.phase = .waiting ∨ s.phase = .returned
  held : AllHeld s

theorem winding_step (h : Winding s) (hphase : s.phase ≠ .returned) :
    ∃ action s', stay s action = some s' ∧ distance s' < distance s := by
  have hwaiting := h.phase.resolve_right hphase
  have hclosed := h.wound.orderly.closed.mpr h.phase
  by_cases hwg : s.wg = 0
  · refine ⟨.wait, { s with phase := .returned }, ?_, ?_⟩
    · exact step_of_move h.wound.orderly (if_pos ⟨hwaiting, hwg⟩)
    · rw [distance, distance, if_pos rfl, if_neg hphase]
      exact Nat.lt_succ_self _
  · have hpos : 0 < s.sessions.countP fun ses => ses.pc.counted := by
      have := h.wound.orderly.wg
      omega
    obtain ⟨ses, hmem, hcounted⟩ := List.countP_pos_iff.mp hpos
    obtain ⟨i, hi⟩ := List.mem_iff_getElem?.mp hmem
    by_cases hidle : ∀ (j : Nat) (ses' : Session), s.sessions[j]? = some ses' →
        ses'.pc.counted = true → ses'.pc = .serving
    · have hpc := hidle i ses hi hcounted
      exact serving_step h.wound hclosed hi hpc (h.held i ses hi hpc) hidle
    · simp only [not_forall] at hidle
      obtain ⟨j, ses', hj, hcounted', hpc'⟩ := hidle
      exact counted_step h.wound hclosed hj hcounted' hpc'

theorem moves_winding (h : Winding s) (hmove : Moves s action s') : Winding s' := by
  have hwound := moves_wound h.wound hmove
  have hclosed := h.wound.orderly.closed.mpr h.phase
  refine ⟨hwound, hwound.orderly.closed.mp ?_, moves_held h.wound hclosed h.held hmove⟩
  rcases moves_closed hmove with hsame | ⟨-, hclosed'⟩
  · exact hsame.trans hclosed
  · exact hclosed'

/-- `Close` disconnects the peers of the set, the others are found already. -/
theorem closePeers_winding (h : Wound s) (hheld : AllHeld s) (hphase : s.phase = .quitting) :
    Winding { s with phase := .waiting, set := s.set.close, sessions := s.disconnectPeers } := by
  have hmove : Moves s .closePeers _ := .closePeers hphase
  refine ⟨moves_wound h hmove, .inl rfl, fun i ses' hi' hpc' => ?_⟩
  rcases moves_session hmove hi' with ⟨ses, hi, hfollows⟩ | ⟨id, trusted, rfl⟩
  · have hpc : ses.pc = .serving := (hfollows.pc (by simp [mover])).symm.trans hpc'
    rcases hheld i ses hi hpc with hlisted | hcut | hfound
    · rw [← hfollows.id] at hlisted
      exact .inl hlisted
    · exact .inr (.inl (hfollows.cut hcut))
    · rcases moves_found hmove hfound with hfound' | hcut
      · exact .inr (.inr hfound')
      · exact .inr (.inl (hcut ses' hi'))
  · cases hpc'

/-! ## A peer that nobody has found is never disconnected -/

theorem advances_found_back (hadv : Advances s r t r') (hr' : found r' = some i) :
    found r = some i ∨ ∃ id, (id, i) ∈ s.set.peers := by
  cases hadv with
  | absent => cases hr'
  | found hmem =>
    cases hr'
    exact .inr ⟨_, hmem⟩
  | free => exact .inl hr'
  | removed => exact .inl hr'
  | disconnected => cases hr'

theorem found_of_removing (hj : s.sessions[j]? = some ses) (hpc : ses.pc = .removing r)
    (hr : found r = some i) : Found s i :=
  .inr ⟨ses, List.mem_of_getElem? hj, r, hpc, hr⟩

theorem found_of_removal (hk : s.removals[k]? = some r) (hr : found r = some i) : Found s i :=
  .inl ⟨r, List.mem_of_getElem? hk, hr⟩

/-- A `removePeer` finds peers of the set only. -/
theorem moves_found_back (hmove : Moves s action s') (hfound : Found s' i) :
    Found s i ∨ ∃ id, (id, i) ∈ s.set.peers := by
  rcases hfound with ⟨r', hmem, hr'⟩ | ⟨ses', hmem, r', hpc', hr'⟩
  · cases hmove with
    | remove _ hadv => exact .inl (.inl ⟨r', advances_removals hadv ▸ hmem, hr'⟩)
    | misbehave =>
      rcases List.mem_append.mp hmem with hmem | hmem
      · exact .inl (.inl ⟨r', hmem, hr'⟩)
      · cases List.mem_singleton.mp hmem
        cases hr'
    | proceed hk hadv =>
      rcases List.mem_or_eq_of_mem_set hmem with hmem | rfl
      · exact .inl (.inl ⟨r', advances_removals hadv ▸ hmem, hr'⟩)
      · exact (advances_found_back hadv hr').imp_left (found_of_removal hk)
    | _ => exact .inl (.inl ⟨r', hmem, hr'⟩)
  · obtain ⟨j, hj'⟩ := List.mem_iff_getElem?.mp hmem
    rcases moves_session hmove hj' with ⟨ses, hj, hfollows⟩ | ⟨id, trusted, rfl⟩
    · by_cases hmover : mover action = some j
      · cases moves_goes hmove hmover hj hj' with
        | outside _ hidle =>
          rw [hpc'] at hidle
          cases hidle
        | registers _ hserves => cases hpc'.symm.trans hserves
        | handles hpc hsame =>
          subst hsame
          exact .inl (found_of_removing hj' hpc' hr')
        | fails _ hremoves =>
          cases hpc'.symm.trans hremoves
          cases hr'
        | removes hpc hadv _ hnext =>
          rw [hpc'] at hnext
          split at hnext
          · cases hnext
          · cases hnext
            exact (advances_found_back hadv hr').imp_left (found_of_removing hj hpc)
        | ends _ hgone => cases hpc'.symm.trans hgone
      · exact .inl (found_of_removing hj ((hfollows.pc hmover).symm.trans hpc') hr')
    · cases hpc'

theorem advances_cut_back {ses' : Session} (hadv : Advances s r t r')
    (hi : s.sessions[i]? = some ses)
    (hi' : t.sessions[i]? = some ses') (hcut : ses'.disconnected = true) :
    ses.disconnected = true ∨ found r = some i := by
  have hsame : s.sessions[i]? = some ses' → ses.disconnected = true := by
    intro h
    rw [hi] at h
    cases h
    exact hcut
  cases hadv with
  | absent => exact .inl (hsame hi')
  | found => exact .inl (hsame hi')
  | free => exact .inl (hsame hi')
  | removed =>
    obtain ⟨rfl, a, ha, rfl⟩ | ⟨-, hi'⟩ := modify_cases hi'
    · rw [hi] at ha
      cases ha
      exact .inl hcut
    · exact .inl (hsame hi')
  | disconnected =>
    obtain ⟨rfl, -⟩ | ⟨-, hi'⟩ := modify_cases hi'
    · exact .inr rfl
    · exact .inl (hsame hi')

/-- A connection ends by `Close` or by the `removePeer` that found it. -/
theorem moves_cut_back {ses' : Session} (hmove : Moves s action s') (hi : s.sessions[i]? = some ses)
    (hi' : s'.sessions[i]? = some ses') (hcut : ses'.disconnected = true) : Held s i ses := by
  have hsame : ∀ {k : Nat} {f : Session → Session}, (s.sessions.modify k f)[i]? = some ses' →
      (∀ ses, (f ses).disconnected = ses.disconnected) → Held s i ses := by
    intro k f hmodify hf
    obtain ⟨rfl, a, ha, rfl⟩ | ⟨-, ha⟩ := modify_cases hmodify
    · rw [hi] at ha
      cases ha
      exact .inr (.inl ((hf ses).symm.trans hcut))
    · rw [hi] at ha
      cases ha
      exact .inr (.inl hcut)
  have hkept : s.sessions[i]? = some ses' → Held s i ses := by
    intro h
    rw [hi] at h
    cases h
    exact .inr (.inl hcut)
  cases hmove with
  | arrive =>
    obtain ⟨hlt, -⟩ := List.getElem?_eq_some_iff.mp hi
    exact hkept ((List.getElem?_append_left hlt).symm.trans hi')
  | pass => exact hsame hi' fun _ => rfl
  | registered => exact hsame hi' fun _ => rfl
  | failed => exact hsame hi' fun _ => rfl
  | remove hat hadv =>
    obtain ⟨hj, hpc⟩ := sessionAt_eq hat
    obtain ⟨a, ha, -⟩ := advances_follows hadv hi
    have hcut' : a.disconnected = true := by
      obtain ⟨rfl, b, hb, rfl⟩ | ⟨-, hb⟩ := modify_cases hi'
      · rw [ha] at hb
        cases hb
        exact hcut
      · rw [ha] at hb
        cases hb
        exact hcut
    exact (advances_cut_back hadv hi ha hcut').elim (fun h => .inr (.inl h))
      fun hr => .inr (.inr (found_of_removing hj hpc hr))
  | done => exact hsame hi' fun _ => rfl
  | proceed hk hadv =>
    exact (advances_cut_back hadv hi hi' hcut).elim (fun h => .inr (.inl h))
      fun hr => .inr (.inr (found_of_removal hk hr))
  | endBroadcast => exact hsame hi' fun _ => rfl
  | closePeers =>
    rw [disconnectPeers_get, hi] at hi'
    by_cases hlisted : (ses.id, i) ∈ s.set.peers
    · exact .inl hlisted
    · rw [Option.map_some, if_neg hlisted] at hi'
      cases hi'
      exact .inr (.inl hcut)
  | _ => exact hkept hi'

/-- A session that serves and whose connection nothing here will end. -/
def Lost (s : System) (i : Nat) : Prop :=
  ∃ ses, s.sessions[i]? = some ses ∧ ses.pc = .serving ∧ ¬ Held s i ses

theorem stay_lost (ho : Orderly s) (hlost : Lost s i) (hstep : stay s action = some s') :
    Lost s' i := by
  obtain ⟨ses, hi, hpc, hnot⟩ := hlost
  obtain ⟨hmove, hmessage⟩ := stay_moves hstep
  obtain ⟨ses', hi', hfollows⟩ := moves_follows hmove hi
  by_cases hsame : s' = s
  · subst hsame
    exact ⟨ses, hi, hpc, hnot⟩
  refine ⟨ses', hi', ?_, ?_⟩
  · by_cases hmover : mover action = some i
    · cases moves_goes hmove hmover hi hi' with
      | outside hearly =>
        rw [hpc] at hearly
        cases hearly
      | registers h => cases hpc.symm.trans h
      | handles _ heq => exact absurd heq hsame
      | fails _ _ haction =>
        -- the read fails only when the connection is closed
        have hcut := hmessage i haction
        rw [hi] at hcut
        exact absurd (.inr (.inl (Option.some.inj hcut))) hnot
      | removes h => cases hpc.symm.trans h
      | ends h => cases hpc.symm.trans h
    · exact (hfollows.pc hmover).trans hpc
  · rintro (hlisted | hcut | hfound)
    · rw [hfollows.id] at hlisted
      rcases moves_peers hmove hlisted with hbefore | ⟨-, a, ha⟩
      · exact hnot (.inl hbefore)
      · obtain ⟨hi, hreg⟩ := sessionAt_eq ha
        rw [‹s.sessions[i]? = some ses›] at hi
        cases hi
        cases hpc.symm.trans hreg
    · exact hnot (moves_cut_back hmove hi hi' hcut)
    · rcases moves_found_back hmove hfound with hbefore | ⟨id, hmem⟩
      · exact hnot (.inr (.inr hbefore))
      · obtain ⟨a, ha, rfl⟩ := ho.entry id i hmem
        rw [hi] at ha
        cases ha
        exact hnot (.inl hmem)

/-! ## IDs that are not used again -/

/-- A `removePeer` is before its `Unregister(id)`, with the peer that it found. -/
def Unregisters (s : System) (id : String) (p : Nat) : Prop :=
  .unregister id p ∈ s.removals ∨ ∃ ses ∈ s.sessions, ses.pc = .removing (.unregister id p)

theorem advances_unregister (hadv : Advances s r t r') {id : String} {p : Nat}
    (hr' : r' = .unregister id p) : (id, p) ∈ s.set.peers := by
  cases hadv with
  | found hmem =>
    cases hr'
    exact hmem
  | _ => cases hr'

theorem moves_unregisters (hmove : Moves s action s') {id : String} {p : Nat}
    (h : Unregisters s' id p) : Unregisters s id p ∨ (id, p) ∈ s.set.peers := by
  rcases h with hmem | ⟨ses', hmem, hpc'⟩
  · cases hmove with
    | remove _ hadv => exact .inl (.inl (advances_removals hadv ▸ hmem))
    | misbehave =>
      rcases List.mem_append.mp hmem with hmem | hmem
      · exact .inl (.inl hmem)
      · cases List.mem_singleton.mp hmem
    | proceed hk hadv =>
      rcases List.mem_or_eq_of_mem_set hmem with hmem | heq
      · exact .inl (.inl (advances_removals hadv ▸ hmem))
      · exact .inr (advances_unregister hadv heq.symm)
    | _ => exact .inl (.inl hmem)
  · obtain ⟨j, hj'⟩ := List.mem_iff_getElem?.mp hmem
    rcases moves_session hmove hj' with ⟨ses, hj, hfollows⟩ | ⟨id, trusted, rfl⟩
    · by_cases hmover : mover action = some j
      · cases moves_goes hmove hmover hj hj' with
        | outside _ hidle =>
          rw [hpc'] at hidle
          cases hidle
        | registers _ hserves => cases hpc'.symm.trans hserves
        | handles _ hsame =>
          subst hsame
          exact .inl (.inr ⟨ses', hmem, hpc'⟩)
        | fails _ hremoves => cases hpc'.symm.trans hremoves
        | removes _ hadv _ hnext =>
          rw [hpc'] at hnext
          split at hnext
          · cases hnext
          · exact .inr (advances_unregister hadv (Pc.removing.inj hnext).symm)
        | ends _ hgone => cases hpc'.symm.trans hgone
      · exact .inl (.inr ⟨ses, List.mem_of_getElem? hj, (hfollows.pc hmover).symm.trans hpc'⟩)
    · cases hpc'

/-- `Unregister(id)` takes a peer out, and the one that was found is disconnected next. -/
theorem advances_listed (hadv : Advances s r t r') {q : String × Nat} (hq : q ∈ s.set.peers) :
    q ∈ t.set.peers ∨ ∃ p, r = .unregister q.1 p ∧ r' = .disconnect p := by
  cases hadv with
  | @removed id found p set hset =>
    by_cases hid : q.1 = id
    · subst hid
      exact .inr ⟨found, rfl, rfl⟩
    · refine .inl ?_
      show q ∈ set.peers
      rw [(PeerSet.unregister_ok hset).2.2]
      exact List.mem_filter.mpr ⟨hq, decide_eq_true hid⟩
  | _ => exact .inl hq

theorem moves_listed (hmove : Moves s action s') {q : String × Nat} (hq : q ∈ s.set.peers) :
    q ∈ s'.set.peers ∨ ∃ p, Unregisters s q.1 p ∧ Found s' p := by
  cases hmove with
  | registered _ hset =>
    refine .inl ?_
    show q ∈ PeerSet.peers _
    rw [(PeerSet.register_ok hset).2.2.2]
    exact List.mem_cons_of_mem _ hq
  | remove hat hadv =>
    obtain ⟨hj, hpc⟩ := sessionAt_eq hat
    refine (advances_listed hadv hq).imp_right fun ⟨p, hr, hr'⟩ => ⟨p, ?_, ?_⟩
    · exact .inr ⟨_, List.mem_of_getElem? hj, hr ▸ hpc⟩
    · obtain ⟨ses', hj', -⟩ := hadv.same hj
      subst hr'
      exact found_of_removing (r := .disconnect p) (modify_self hj') rfl rfl
  | proceed hk hadv =>
    refine (advances_listed hadv hq).imp_right fun ⟨p, hr, hr'⟩ => ⟨p, ?_, ?_⟩
    · exact .inl (hr ▸ List.mem_of_getElem? hk)
    · obtain ⟨hlt, -⟩ := List.getElem?_eq_some_iff.mp hk
      refine .inl ⟨_, List.mem_set (by rwa [advances_removals hadv]) _, ?_⟩
      rw [hr']
      rfl
  | _ => exact .inl hq

def ids (s : System) : List String := s.sessions.map Session.id

theorem moves_ids (hmove : Moves s action s') : ∃ more, ids s' = ids s ++ more := by
  have hsame : s'.sessions.map Session.id = s.sessions.map Session.id →
    ∃ more, ids s' = ids s ++ more :=
    fun h => ⟨[], h.trans (List.append_nil _).symm⟩
  have hadvances : ∀ {r r' : Removal} {t : System}, Advances s r t r' →
      t.sessions.map Session.id = s.sessions.map Session.id := by
    intro r r' t hadv
    cases hadv with
    | removed => exact map_modify_same fun _ _ => rfl
    | disconnected => exact map_modify_same fun _ _ => rfl
    | _ => rfl
  cases hmove with
  | arrive => exact ⟨_, List.map_append⟩
  | pass => exact hsame (map_modify_same fun _ _ => rfl)
  | registered => exact hsame (map_modify_same fun _ _ => rfl)
  | failed => exact hsame (map_modify_same fun _ _ => rfl)
  | remove _ hadv =>
    refine hsame (Eq.trans ?_ (hadvances hadv))
    exact map_modify_same fun _ _ => rfl
  | done => exact hsame (map_modify_same fun _ _ => rfl)
  | proceed _ hadv =>
    have hkept := hadvances hadv
    exact hsame hkept
  | endBroadcast => exact hsame (map_modify_same fun _ _ => rfl)
  | closePeers => exact hsame (disconnectPeers_map fun _ => rfl)
  | _ => exact hsame rfl

/-- Where no ID is used twice, a `removePeer` takes out the peer that it has found. -/
structure Distinct (s : System) : Prop where
  named : ∀ id p, Unregisters s id p → ∃ ses, s.sessions[p]? = some ses ∧ ses.id = id
  held : AllHeld s

theorem id_injective (hids : (ids s).Nodup) {ses' : Session} (hi : s.sessions[i]? = some ses)
    (hj : s.sessions[j]? = some ses') (hid : ses.id = ses'.id) : i = j := by
  obtain ⟨hlt, -⟩ := List.getElem?_eq_some_iff.mp hi
  have hlt' : i < (ids s).length := by rwa [ids, List.length_map]
  refine (List.getElem?_inj hlt' hids).mp ?_
  rw [ids, List.getElem?_map, List.getElem?_map, hi, hj, Option.map_some, Option.map_some, hid]

theorem moves_distinct (ho : Orderly s) (h : Distinct s) (hids : (ids s).Nodup)
    (hmove : Moves s action s') : Distinct s' := by
  have hnamed : ∀ id p, Unregisters s id p ∨ (id, p) ∈ s.set.peers →
      ∃ ses, s.sessions[p]? = some ses ∧ ses.id = id :=
    fun id p hor => hor.elim (h.named id p) (ho.entry id p)
  refine ⟨fun id p hun => ?_, fun i ses' hi' hpc' => ?_⟩
  · obtain ⟨ses, hp, rfl⟩ := hnamed id p (moves_unregisters hmove hun)
    obtain ⟨ses', hp', hfollows⟩ := moves_follows hmove hp
    exact ⟨ses', hp', hfollows.id⟩
  · rcases moves_session hmove hi' with ⟨ses, hi, hfollows⟩ | ⟨id, trusted, rfl⟩
    · have hserved : ses.pc = .serving → Held s' i ses' := by
        intro hpc
        rcases h.held i ses hi hpc with hlisted | hcut | hfound
        · rcases moves_listed hmove hlisted with hlisted' | ⟨p, hun, hfound⟩
          · rw [← hfollows.id] at hlisted'
            exact .inl hlisted'
          · obtain ⟨a, ha, hid⟩ := h.named _ p hun
            cases id_injective hids ha hi hid
            exact .inr (.inr hfound)
        · exact .inr (.inl (hfollows.cut hcut))
        · rcases moves_found hmove hfound with hfound' | hcut
          · exact .inr (.inr hfound')
          · exact .inr (.inl (hcut ses' hi'))
      by_cases hmover : mover action = some i
      · cases moves_goes hmove hmover hi hi' with
        | outside _ hidle =>
          rw [hpc'] at hidle
          cases hidle
        | registers _ _ _ hlisted =>
          rw [← hfollows.id] at hlisted
          exact .inl hlisted
        | handles hpc => exact hserved hpc
        | fails hpc => exact hserved hpc
        | removes _ _ _ hnext =>
          rw [hpc'] at hnext
          split at hnext <;> cases hnext
        | ends _ hgone => cases hpc'.symm.trans hgone
      · exact hserved ((hfollows.pc hmover).symm.trans hpc')
    · cases hpc'

end Steps

/-! ## Runs -/

section Runs

variable {s : System} {l : List Action}

theorem run_wound (h : run System.step System.init l = some s) : Wound s :=
  run_keeps (fun _ _ _ hs hstep => moves_wound hs (step_moves hstep)) wound_init h

theorem winding_returns (h : Winding s) :
    ∃ more s', run stay s more = some s' ∧ s'.phase = .returned := by
  have hprogress : ∀ s, Winding s → ¬ s.phase = .returned →
      ∃ action s', stay s action = some s' ∧ Winding s' ∧ distance s' < distance s := by
    intro s hs hnot
    obtain ⟨action, s', hstep, hlt⟩ := winding_step hs hnot
    exact ⟨action, s', hstep, moves_winding hs (stay_moves hstep).1, hlt⟩
  obtain ⟨more, s', hrun, -, hend⟩ := run_ends distance hprogress h
  exact ⟨more, s', hrun, hend⟩

/-- What is left of `Stop` up to `Close` takes its steps. -/
theorem stop_winds (h : Wound s) (hheld : AllHeld s)
    (hphase : s.phase ≠ .created ∧ s.phase ≠ .started) :
    ∃ more s', run stay s more = some s' ∧ Winding s' := by
  have hstep : ∀ {action : Action} {s t : System}, Wound s → s.move action = some t →
      s.step action = some t := fun hs hmove => step_of_move hs.orderly hmove
  have hquitting : ∀ s, Wound s → AllHeld s → s.phase = .quitting →
      ∃ more s', run stay s more = some s' ∧ Winding s' := by
    intro s h hheld hphase
    refine ⟨[.closePeers], _, ?_, closePeers_winding h hheld hphase⟩
    exact Option.bind_eq_some_iff.mpr ⟨_, hstep h (if_pos hphase), rfl⟩
  have hnoMorePeers : ∀ s, Wound s → AllHeld s → s.phase = .noMorePeers →
      ∃ more s', run stay s more = some s' ∧ Winding s' := by
    intro s h hheld hphase
    have hmove : Moves s .closeQuit _ := .turn (.closeQuit hphase)
    obtain ⟨more, s', hrun, hs'⟩ := hquitting _ (moves_wound h hmove) hheld rfl
    exact ⟨.closeQuit :: more, s', Option.bind_eq_some_iff.mpr
      ⟨_, hstep h (if_pos hphase), hrun⟩, hs'⟩
  cases heq : s.phase with
  | created => exact absurd heq hphase.1
  | started => exact absurd heq hphase.2
  | stopping =>
    have hmove : Moves s .refusePeers _ := .turn (.refusePeers heq)
    obtain ⟨more, s', hrun, hs'⟩ := hnoMorePeers _ (moves_wound h hmove) hheld rfl
    have hsyncer := h.orderly.syncer.mpr (.inr heq)
    exact ⟨.refusePeers :: more, s',
      Option.bind_eq_some_iff.mpr ⟨_, hstep h (if_pos ⟨heq, hsyncer⟩), hrun⟩, hs'⟩
  | noMorePeers => exact hnoMorePeers s h hheld heq
  | quitting => exact hquitting s h hheld heq
  | waiting => exact ⟨[], s, rfl, h, .inl heq, hheld⟩
  | returned => exact ⟨[], s, rfl, h, .inr heq, hheld⟩

theorem held_returns (h : Wound s) (hheld : AllHeld s)
    (hphase : s.phase ≠ .created ∧ s.phase ≠ .started) :
    ∃ more s', run stay s more = some s' ∧ s'.phase = .returned := by
  obtain ⟨before, t, hbefore, hwinding⟩ := stop_winds h hheld hphase
  obtain ⟨after, s', hafter, hreturned⟩ := winding_returns hwinding
  exact ⟨before ++ after, s', run_trans hbefore hafter, hreturned⟩

/-- Once it is called, `Stop` can return without another node giving up its connection
exactly when every session that serves is in the set, is disconnected, or has been found
by a `removePeer` that has not come to its `Disconnect`. -/
theorem stop_returns_iff (h : run System.step System.init l = some s)
    (hphase : s.phase ≠ .created ∧ s.phase ≠ .started) :
    (∃ more s', run stay s more = some s' ∧ s'.phase = .returned) ↔
      ∀ i ses, s.sessions[i]? = some ses → ses.pc = .serving → Held s i ses := by
  have hwound := run_wound h
  constructor
  · rintro ⟨more, s', hrun, hreturned⟩ i ses hi hpc
    by_contra hnot
    -- the session serves for ever, and `pm.wg` counts it
    obtain ⟨hwound', hlost⟩ := run_keeps (I := fun s => Wound s ∧ Lost s i)
      (fun _ _ _ hs hstep => ⟨moves_wound hs.1 (stay_moves hstep).1,
        stay_lost hs.1.orderly hs.2 hstep⟩)
      ⟨hwound, ses, hi, hpc, hnot⟩ hrun
    obtain ⟨ses', hi', hpc', -⟩ := hlost
    have hquiet := hwound'.orderly.quiet hreturned ses' (List.mem_of_getElem? hi')
    rw [hpc'] at hquiet
    cases hquiet
  · intro hheld
    exact held_returns hwound hheld hphase

/-- The fetcher's `removePeer` finds the first session of the node and takes out the second. -/
def reconnect : List Action :=
  [.start 2, .arrive "a" false, .announce 0, .count 0, .check 0, .shaken 0 true, .register 0,
    .misbehave "a", .proceed 0, .message 0 false, .remove 0, .remove 0, .remove 0, .done 0,
    .arrive "a" false, .announce 1, .count 1, .check 1, .shaken 1 true, .register 1,
    .proceed 0, .proceed 0, .stop, .refusePeers, .closeQuit, .closePeers]

theorem stop_returns_iff_reconnect :
    ∃ s, run System.step System.init reconnect = some s ∧ s.phase = .waiting ∧
      ¬ ∃ more s', run stay s more = some s' ∧ s'.phase = .returned := by
  have hcalls : (run System.step System.init reconnect).map (fun s => (s.phase, s.removals)) =
      some (.waiting, [.finished]) := by decide +kernel
  have hpeers : (run System.step System.init reconnect).map (fun s => (s.set.peers, s.sessions)) =
      some ([], [⟨"a", false, .gone, true, .running, true⟩,
        ⟨"a", false, .serving, true, .running, false⟩]) := by decide +kernel
  obtain ⟨s, hs, heq⟩ := Option.map_eq_some_iff.mp hcalls
  rw [hs, Option.map_some] at hpeers
  obtain ⟨hphase, hremovals⟩ := Prod.mk.inj heq
  obtain ⟨hpeers, hsessions⟩ := Prod.mk.inj (Option.some.inj hpeers)
  refine ⟨s, hs, hphase, fun hreturns => ?_⟩
  have hheld := (stop_returns_iff hs (by simp [hphase])).mp hreturns 1 _
    (by rw [hsessions]; rfl) rfl
  simp [Held, Found, hremovals, hpeers, hsessions, found] at hheld

/-- As long as no ID is used twice, `Stop` can always return without the other nodes. -/
theorem stop_returns (h : run System.step System.init l = some s) (hids : (ids s).Nodup)
    (hphase : s.phase ≠ .created ∧ s.phase ≠ .started) :
    ∃ more s', run stay s more = some s' ∧ s'.phase = .returned := by
  have hkeeps : Wound s ∧ ((ids s).Nodup → Distinct s) := by
    refine run_keeps (I := fun s => Wound s ∧ ((ids s).Nodup → Distinct s)) ?_ ?_ h
    · rintro s action s' ⟨hs, hdistinct⟩ hstep
      have hmove := step_moves hstep
      refine ⟨moves_wound hs hmove, fun hids' => ?_⟩
      obtain ⟨more, heq⟩ := moves_ids hmove
      rw [heq] at hids'
      have hids := (List.nodup_append.mp hids').1
      exact moves_distinct hs.orderly (hdistinct hids) hids hmove
    · refine ⟨wound_init, fun _ => ⟨?_, ?_⟩⟩
      · rintro id p (hmem | ⟨ses, hmem, -⟩) <;> cases hmem
      · intro i ses hi
        cases hi
  exact held_returns hkeeps.1 (hkeeps.2 hids).held hphase

/-- `Stop` is called while the only peer is being served and its removal is under way. -/
theorem stop_returns_served :
    ∃ s, run System.step System.init [.start 2, .arrive "a" false,
      .announce 0, .count 0, .check 0,
        .shaken 0 true, .register 0, .misbehave "a", .proceed 0, .proceed 0, .stop] = some s ∧
      ∃ more s', run stay s more = some s' ∧ s'.phase = .returned := by
  have hend : (run System.step System.init [.start 2, .arrive "a" false, .announce 0, .count 0,
      .check 0, .shaken 0 true, .register 0, .misbehave "a", .proceed 0, .proceed 0, .stop]).map
        (fun s => (s.phase, ids s)) = some (.stopping, ["a"]) := by decide +kernel
  obtain ⟨s, hs, heq⟩ := Option.map_eq_some_iff.mp hend
  obtain ⟨hphase, hids⟩ := Prod.mk.inj heq
  exact ⟨s, hs, stop_returns hs (by simp [hids]) (by simp [hphase])⟩

end Runs

end MiniOpera.StopProgress
