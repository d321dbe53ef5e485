import MiniOpera.Handshake

/-!
# What a finished handshake means

`handshake_sound`: against any other side and in any interleaving of its goroutines,
`Handshake` returns nil only if the status and the progress were sent and the first
message of the other side was a status that agrees with its own.
`handshake_agrees`: of two nodes, neither accepts the other unless they agree, and if
they agree neither calls the other's status wrong.
`goroutines_end_iff`: the goroutines of a `Handshake` that has returned can end, except
for one that is left at `errc` for ever when the timeout came before any result and the
status could not be sent.
-/

namespace MiniOpera.HandshakeRuns
open LittleEndian RlpItem InterEvent Peers Threads Handshake

/-! ## Results that were pushed -/

/-- What `Handshake` has made of the results that it took. -/
def Heeds (taken : List Result) : Main → Prop
  | .waiting n => n < 2 ∧ taken = List.replicate n none
  | .returned r _ => (r = none → taken = [none, none]) ∧ (r = some .readTimeout ∨ r ∈ taken)

/-- `pushed` are the results in the order in which they were pushed. -/
structure Pushed (p : Party) (pushed : List Result) : Prop where
  queue : p.errc = pushed.drop p.main.taken
  taken : p.main.taken ≤ pushed.length
  heeds : Heeds (pushed.take p.main.taken) p.main
  writer : p.writer.pushed.Sublist pushed
  all : pushed.Perm (p.writer.pushed ++ p.reader.pushed)
  room : p.errc.length ≤ errcSize

/-- The result of `readStatus`. -/
def heard (c : Config) : Option Msg → Result
  | none => some .read
  | some msg => readStatus c msg

def statusOf (c : Config) : Msg := ⟨statusMsg, encodeStatus c.status⟩

def progressOf (c : Config) : Msg := ⟨progressMsg, c.progress⟩

structure Regular (p : Party) : Prop where
  pushed : ∃ pushed, Pushed p pushed
  heard : ∀ r, p.reader.result = some r → r = heard p.config p.got
  unsent : p.writer = .status → p.sent = []
  first : ∀ msg, p.sent.head? = some msg → msg = statusOf p.config ∨ msg = progressOf p.config
  status : p.writer.failed = false → p.writer ≠ .status →
    p.sent.head? = some (statusOf p.config)
  progress : p.writer.result = some none → progressOf p.config ∈ p.sent
  written : ∀ r, p.writer.result = some r → r = none ∨ r = some .write

/-! ## Steps of one side -/

section Party

variable {p p' : Party} {action : PartyAction} {pushed : List Result} {r : Result}

/-- A goroutine moves that pushes nothing. -/
theorem Pushed.same (h : Pushed p pushed) {q : Party} (hmain : q.main = p.main)
    (herrc : q.errc = p.errc)
    (hwriter : q.writer.pushed = p.writer.pushed) (hreader : q.reader.pushed = p.reader.pushed) :
    Pushed q pushed := by
  refine ⟨?_, ?_, ?_, ?_, ?_, ?_⟩
  · rw [herrc, hmain]
    exact h.queue
  · rw [hmain]
    exact h.taken
  · rw [hmain]
    exact h.heeds
  · rw [hwriter]
    exact h.writer
  · rw [hwriter, hreader]
    exact h.all
  · rw [herrc]
    exact h.room

/-- A goroutine pushes a result. -/
theorem Pushed.push (h : Pushed p pushed) {q : Party} (hmain : q.main = p.main)
    (hroom : p.errc.length < errcSize) (herrc : q.errc = p.errc ++ [r])
    (hwriter : q.writer.pushed = p.writer.pushed ++ [r] ∧ q.reader.pushed = p.reader.pushed ∨
      q.writer.pushed = p.writer.pushed ∧ p.reader.pushed = [] ∧ q.reader.pushed = [r]) :
    Pushed q (pushed ++ [r]) := by
  refine ⟨?_, ?_, ?_, ?_, ?_, ?_⟩
  · rw [herrc, hmain, h.queue, List.drop_append_of_le_length h.taken]
  · rw [hmain, List.length_append]
    exact Nat.le_add_right_of_le h.taken
  · rw [hmain, List.take_append_of_le_length h.taken]
    exact h.heeds
  · rcases hwriter with ⟨hw, -⟩ | ⟨hw, -⟩
    · rw [hw]
      exact h.writer.append_right [r]
    · rw [hw]
      exact h.writer.trans (List.sublist_append_left _ _)
  · rcases hwriter with ⟨hw, hr⟩ | ⟨hw, hnone, hr⟩
    · rw [hw, hr, List.append_assoc]
      exact (h.all.append_right [r]).trans (by
        rw [List.append_assoc]
        exact List.perm_append_comm.append_left _)
    · have hall := h.all
      rw [hnone, List.append_nil] at hall
      rw [hw, hr]
      exact hall.append_right [r]
  · rw [herrc, List.length_append]
    exact hroom

theorem Pushed.take (h : Pushed p pushed) {rest : List Result} {taken : Nat}
    (hmain : p.main = .waiting taken) (herrc : p.errc = r :: rest) :
    Pushed { p with
      main := if r.isSome ∨ taken + 1 = 2 then .returned r (taken + 1) else .waiting (taken + 1)
      errc := rest } pushed := by
  have htaken : (if r.isSome ∨ taken + 1 = 2 then Main.returned r (taken + 1)
      else Main.waiting (taken + 1)).taken = taken + 1 := by
    split <;> rfl
  have hdrop : pushed.drop taken = r :: rest := by
    have hqueue := h.queue
    rw [hmain, herrc] at hqueue
    exact hqueue.symm
  have hlt : taken < pushed.length := by
    have hlength := congrArg List.length hdrop
    rw [List.length_drop, List.length_cons] at hlength
    omega
  have hheeds := h.heeds
  rw [hmain] at hheeds
  obtain ⟨htwo, hnone⟩ := hheeds
  have hhead : pushed.take (taken + 1) = List.replicate taken none ++ [r] := by
    rw [List.take_add_one, hnone.symm]
    refine congrArg (pushed.take taken ++ ·) ?_
    have hget : pushed[taken]? = some r := by
      rw [← List.head?_drop, hdrop]
      rfl
    rw [hget]
    rfl
  refine ⟨?_, ?_, ?_, h.writer, h.all, ?_⟩
  · show rest = _
    rw [htaken, ← List.tail_drop, hdrop, List.tail_cons]
  · rw [htaken]
    exact hlt
  · rw [htaken, hhead]
    split
    · next hor =>
      refine ⟨?_, .inr (List.mem_append_right _ List.mem_cons_self)⟩
      rintro rfl
      obtain rfl : taken = 1 := by simpa using hor
      rfl
    · next hor =>
      simp only [not_or, Bool.not_eq_true, Option.isSome_eq_false_iff,
        Option.isNone_iff_eq_none] at hor
      obtain ⟨rfl, hne⟩ := hor
      exact ⟨by omega, (List.replicate_succ' ..).symm⟩
  · have hroom := h.room
    rw [herrc] at hroom
    exact Nat.le_of_succ_le hroom

theorem Pushed.timeout (h : Pushed p pushed) {taken : Nat} (hmain : p.main = .waiting taken) :
    Pushed { p with main := .returned (some .readTimeout) taken } pushed := by
  refine ⟨?_, ?_, ⟨fun hr => (by cases hr), .inl rfl⟩, h.writer, h.all, h.room⟩
  · have hqueue := h.queue
    rw [hmain] at hqueue
    exact hqueue
  · have htaken := h.taken
    rw [hmain] at htaken
    exact htaken

theorem deliver_cases (p : Party) (outcome : Sending) (msg : Msg) :
    p.deliver outcome msg = p.sent ∧ outcome.arrives = false ∨
      p.deliver outcome msg = p.sent ++ [msg] ∧ outcome.arrives = true := by
  unfold Party.deliver
  cases outcome.arrives <;> simp

theorem result_arrives {outcome : Sending} (h : outcome.result = none) :
    outcome.arrives = true := by
  cases outcome with
  | ok => rfl
  | failed => cases h

theorem head?_append_of {l : List Msg} {a b : Msg} (h : (l ++ [b]).head? = some a) :
    l.head? = some a ∨ l = [] ∧ a = b := by
  cases l with
  | nil =>
    cases h
    exact .inr ⟨rfl, rfl⟩
  | cons x l => exact .inl h

theorem Regular.sendStatus (h : Regular p) (hwriter : p.writer = .status) (outcome : Sending) :
    Regular { p with
      writer := if outcome.result.isSome then .complaining else .progress false
      sent := p.deliver outcome ⟨statusMsg, encodeStatus p.config.status⟩ } := by
  obtain ⟨pushed, hpushed⟩ := h.pushed
  have hsent := h.unsent hwriter
  refine ⟨⟨pushed, hpushed.same rfl rfl ?_ rfl⟩, h.heard, ?_, ?_, ?_, ?_, ?_⟩
  · rw [hwriter]
    dsimp only
    split <;> rfl
  · intro heq
    dsimp only at heq
    split at heq <;> cases heq
  · intro msg hmsg
    rcases deliver_cases p outcome ⟨statusMsg, encodeStatus p.config.status⟩ with
      ⟨heq, -⟩ | ⟨heq, -⟩
    · rw [heq] at hmsg
      exact h.first msg hmsg
    · rw [heq, hsent] at hmsg
      cases hmsg
      exact .inl rfl
  · intro hfailed hne
    cases hresult : outcome.result with
    | some err =>
      rw [hresult] at hfailed
      cases hfailed
    | none =>
      rw [Party.deliver, if_pos (result_arrives hresult), hsent]
      rfl
  · intro hresult
    dsimp only at hresult
    split at hresult <;> cases hresult
  · intro r hresult
    dsimp only at hresult
    split at hresult <;> cases hresult

theorem Regular.sendProgress (h : Regular p) {failed : Bool} (hwriter : p.writer = .progress failed)
    (outcome : Sending) :
    Regular { p with
      writer := .reporting failed outcome.result
      sent := p.deliver outcome ⟨progressMsg, p.config.progress⟩ } := by
  obtain ⟨pushed, hpushed⟩ := h.pushed
  refine ⟨⟨pushed, hpushed.same rfl rfl (by rw [hwriter]; rfl) rfl⟩, h.heard,
    fun heq => (by cases heq),
    ?_, ?_, ?_, ?_⟩
  · intro msg hmsg
    rcases deliver_cases p outcome ⟨progressMsg, p.config.progress⟩ with
      ⟨heq, -⟩ | ⟨heq, -⟩
    · rw [heq] at hmsg
      exact h.first msg hmsg
    · rw [heq] at hmsg
      rcases head?_append_of hmsg with hold | ⟨-, rfl⟩
      · exact h.first msg hold
      · exact .inr rfl
  · intro hfailed _
    have hhead := h.status (by rw [hwriter]; exact hfailed) (by rw [hwriter]; simp)
    rcases deliver_cases p outcome ⟨progressMsg, p.config.progress⟩ with
      ⟨heq, -⟩ | ⟨heq, -⟩
    · rw [heq]
      exact hhead
    · rw [heq, List.head?_append, hhead]
      rfl
  · intro hresult
    have hresult : outcome.result = none := Option.some.inj hresult
    rw [Party.deliver, if_pos (result_arrives hresult)]
    exact List.mem_append_right _ List.mem_cons_self
  · intro r hresult
    cases hresult
    cases outcome with
    | ok => exact .inl rfl
    | failed => exact .inr rfl

/-- Only the results change. -/
theorem Regular.move (h : Regular p) {q : Party} (hpushed : ∃ pushed, Pushed q pushed)
    (hconfig : q.config = p.config) (hgot : q.got = p.got) (hsent : q.sent = p.sent)
    (hheard : q.reader.result = p.reader.result)
    (hstatus : q.writer = .status → p.writer = .status)
    (hfailed : q.writer.failed = p.writer.failed)
    (hstart : q.writer ≠ .status → p.writer ≠ .status)
    (hresult : q.writer.result = p.writer.result) : Regular q := by
  refine ⟨hpushed, ?_, ?_, ?_, ?_, ?_, ?_⟩
  · rw [hheard, hconfig, hgot]
    exact h.heard
  · rw [hsent]
    exact fun heq => h.unsent (hstatus heq)
  · rw [hsent, hconfig]
    exact h.first
  · rw [hsent, hconfig, hfailed]
    exact fun hf hne => h.status hf (hstart hne)
  · rw [hsent, hconfig, hresult]
    exact h.progress
  · rw [hresult]
    exact h.written

theorem step_regular (h : Regular p) (hstep : p.step action = some p') :
    Regular p' ∧ p'.config = p.config := by
  obtain ⟨pushed, hpushed⟩ := h.pushed
  cases action with
  | sendStatus outcome =>
    obtain ⟨hwriter, heq⟩ := Option.ite_none_right_eq_some.mp hstep
    cases heq
    exact ⟨h.sendStatus hwriter outcome, rfl⟩
  | sendProgress outcome =>
    simp only [Party.step] at hstep
    split at hstep
    · next failed hwriter =>
      cases hstep
      exact ⟨h.sendProgress hwriter outcome, rfl⟩
    · cases hstep
  | pushWriter =>
    obtain ⟨hroom, hpush⟩ := Option.ite_none_right_eq_some.mp hstep
    split at hpush
    · next hwriter =>
      cases hpush
      refine ⟨h.move ⟨_, hpushed.push rfl hroom rfl (.inl ⟨by rw [hwriter]; rfl, rfl⟩)⟩
        rfl rfl rfl rfl
        (fun heq => by cases heq) (by rw [hwriter]; rfl) (fun _ => by rw [hwriter]; simp)
        (by rw [hwriter]; rfl), rfl⟩
    · next failed r hwriter =>
      cases hpush
      refine ⟨h.move ⟨_, hpushed.push rfl hroom rfl (.inl ⟨?_, rfl⟩)⟩ rfl rfl rfl rfl
        (fun heq => by cases heq) (by rw [hwriter]; rfl) (fun _ => by rw [hwriter]; simp)
        (by rw [hwriter]; rfl), rfl⟩
      rw [hwriter]
      cases failed <;> rfl
    · cases hpush
  | read msg =>
    obtain ⟨hreader, heq⟩ := Option.ite_none_right_eq_some.mp hstep
    cases heq
    refine ⟨⟨⟨pushed, hpushed.same rfl rfl rfl (by rw [hreader]; rfl)⟩,
      fun r hr => ?_, h.unsent,
      h.first, h.status, h.progress, h.written⟩, rfl⟩
    cases hr
    cases msg <;> rfl
  | pushReader =>
    obtain ⟨hroom, hpush⟩ := Option.ite_none_right_eq_some.mp hstep
    split at hpush
    · next r hreader =>
      cases hpush
      exact ⟨h.move ⟨_, hpushed.push rfl hroom rfl
        (.inr ⟨rfl, by rw [hreader]; rfl, rfl⟩)⟩ rfl rfl rfl
        (by rw [hreader]; rfl) id rfl id rfl, rfl⟩
    · cases hpush
  | take =>
    simp only [Party.step] at hstep
    split at hstep
    · next taken r rest hmain herrc =>
      cases hstep
      exact ⟨h.move ⟨_, hpushed.take hmain herrc⟩ rfl rfl rfl rfl id rfl id rfl, rfl⟩
    · cases hstep
  | timeout =>
    simp only [Party.step] at hstep
    split at hstep
    · next taken hmain =>
      cases hstep
      exact ⟨h.move ⟨_, hpushed.timeout hmain⟩ rfl rfl rfl rfl id rfl id rfl, rfl⟩
    · cases hstep

/-- What a step leaves as it is: what was sent stays sent, `Handshake` returns once, and
a status that could not be sent is not sent again. -/
structure Frame (p : Party) (action : PartyAction) (p' : Party) : Prop where
  sent : ∃ more, p'.sent = p.sent ++ more
  got : p'.got = p.got ∨ ∃ msg, action = .read msg ∧ p'.got = msg
  returned : ∀ r taken, p.main = .returned r taken → p'.main = .returned r taken
  failed : p.writer.failed = true → p'.writer.failed = true

theorem step_frame {p p' : Party} {action : PartyAction} (h : p.step action = some p') :
    Frame p action p' := by
  have hdeliver : ∀ outcome msg, ∃ more, p.deliver outcome msg = p.sent ++ more := by
    intro outcome msg
    rcases deliver_cases p outcome msg with ⟨heq, -⟩ | ⟨heq, -⟩
    · exact ⟨[], by rw [heq, List.append_nil]⟩
    · exact ⟨[msg], heq⟩
  have hsame : ∃ more, p.sent = p.sent ++ more := ⟨[], (List.append_nil _).symm⟩
  cases action with
  | sendStatus outcome =>
    obtain ⟨hwriter, heq⟩ := Option.ite_none_right_eq_some.mp h
    cases heq
    refine ⟨hdeliver _ _, .inl rfl, fun _ _ => id, fun hfailed => ?_⟩
    rw [hwriter] at hfailed
    cases hfailed
  | sendProgress outcome =>
    simp only [Party.step] at h
    split at h
    · next failed hwriter =>
      cases h
      exact ⟨hdeliver _ _, .inl rfl, fun _ _ => id, fun hfailed => by rwa [hwriter] at hfailed⟩
    · cases h
  | pushWriter =>
    obtain ⟨-, hpush⟩ := Option.ite_none_right_eq_some.mp h
    split at hpush
    · cases hpush
      exact ⟨hsame, .inl rfl, fun _ _ => id, fun _ => rfl⟩
    · next failed r hwriter =>
      cases hpush
      exact ⟨hsame, .inl rfl, fun _ _ => id, fun hfailed => by rwa [hwriter] at hfailed⟩
    · cases hpush
  | read msg =>
    obtain ⟨-, heq⟩ := Option.ite_none_right_eq_some.mp h
    cases heq
    exact ⟨hsame, .inr ⟨msg, rfl, rfl⟩, fun _ _ => id, id⟩
  | pushReader =>
    obtain ⟨-, hpush⟩ := Option.ite_none_right_eq_some.mp h
    split at hpush <;> cases hpush
    exact ⟨hsame, .inl rfl, fun _ _ => id, id⟩
  | take =>
    simp only [Party.step] at h
    split at h
    · next taken r rest hmain herrc =>
      cases h
      exact ⟨hsame, .inl rfl, fun _ _ hr => (by cases hmain.symm.trans hr), id⟩
    · cases h
  | timeout =>
    simp only [Party.step] at h
    split at h
    · next taken hmain =>
      cases h
      exact ⟨hsame, .inl rfl, fun _ _ hr => (by cases hmain.symm.trans hr), id⟩
    · cases h

theorem start_regular (c : Config) : Regular (.start c) where
  pushed := ⟨[], rfl, Nat.le_refl _, ⟨by decide, rfl⟩, List.Sublist.refl _,
    .refl _, Nat.zero_le _⟩
  heard r hr := by cases hr
  unsent _ := rfl
  first msg hmsg := by cases hmsg
  status _ hne := absurd rfl hne
  progress hr := by cases hr
  written r hr := by cases hr

theorem writer_pushed (w : Writer) :
    w.pushed = [] ∨ (∃ later, w.pushed = some .write :: later) ∨
      ∃ r, w = .done false r := by
  cases w with
  | status => exact .inl rfl
  | complaining => exact .inl rfl
  | progress failed => cases failed <;> simp [Writer.pushed]
  | reporting failed r => cases failed <;> simp [Writer.pushed]
  | done failed r => cases failed <;> simp [Writer.pushed]

theorem reader_pushed (w : Reader) : w.pushed = [] ∨ ∃ r, w = .done r := by
  cases w <;> simp [Reader.pushed]

/-- An error of the first send is pushed before the result of the second, so that two nil
results come from both goroutines. -/
theorem Pushed.nil_results (h : Pushed p pushed) {taken : Nat}
    (hmain : p.main = .returned none taken) :
    p.writer = .done false none ∧ p.reader = .done none := by
  have hheeds := h.heeds
  rw [hmain] at hheeds
  have htake : pushed.take taken = [none, none] := hheeds.1 rfl
  obtain ⟨rest, rfl⟩ : ∃ rest, pushed = none :: none :: rest := by
    have hsplit := List.take_append_drop taken pushed
    rw [htake] at hsplit
    exact ⟨pushed.drop taken, hsplit.symm⟩
  have hlength := h.all.length_eq
  rw [List.length_append, List.length_cons, List.length_cons] at hlength
  have hreader : p.reader.pushed.length ≤ 1 := by
    rcases reader_pushed p.reader with hr | ⟨v, hr⟩ <;> rw [hr] <;> simp [Reader.pushed]
  rcases writer_pushed p.writer with hnone | ⟨later, hfailed⟩ | ⟨r, hdone⟩
  · rw [hnone, List.length_nil] at hlength
    omega
  · -- the error and what follows it come after the two nil results
    have hsub := h.writer
    rw [hfailed] at hsub
    have hlate := (hsub.of_cons_of_ne (by simp)).of_cons_of_ne (by simp)
    have hle := hlate.length_le
    rw [hfailed] at hlength
    omega
  · rcases reader_pushed p.reader with hr | ⟨v, hr⟩
    · rw [hdone, hr] at hlength
      simp [Writer.pushed] at hlength
    · have hrest : rest = [] := by
        rw [hdone, hr] at hlength
        exact List.length_eq_zero_iff.mp (by simpa [Writer.pushed, Reader.pushed] using hlength)
      have hall := h.all
      rw [hdone, hr, hrest] at hall
      have hnil : ∀ x, x = r ∨ x = v → x = none := by
        intro x hx
        have hmem := (hall.mem_iff (a := x)).mpr (by simpa [Writer.pushed, Reader.pushed] using hx)
        simpa using hmem
      rw [hdone, hr, hnil r (.inl rfl), hnil v (.inr rfl)]
      exact ⟨rfl, rfl⟩

end Party

/-! ## Against any other side -/

theorem readStatus_eq_none {c : Config} {msg : Msg} :
    readStatus c msg = none ↔ msg.code = statusMsg ∧
      msg.payload.length ≤ protocolMaxMsgSize ∧
      ∃ status, decodeStatus msg.payload = some status ∧ status.genesis = c.genesis ∧
        status.networkID = c.network ∧ status.protocolVersion.toNat = c.version := by
  unfold readStatus
  split
  · next hcode => simp [hcode]
  · next hcode =>
    split
    · next hsize =>
      simp only [reduceCtorEq, false_iff, not_and]
      omega
    · next hsize =>
      cases decodeStatus msg.payload with
      | none => simp
      | some status =>
        simp only [ne_eq, ite_not, Option.some.injEq, exists_eq_left']
        constructor
        · intro h
          split at h
          · next hgenesis =>
            split at h
            · next hnetwork =>
              split at h
              · next hversion => exact ⟨by simpa using hcode, by omega,
                  hgenesis, hnetwork, hversion⟩
              · cases h
            · cases h
          · cases h
        · rintro ⟨-, -, hgenesis, hnetwork, hversion⟩
          rw [if_pos hgenesis, if_pos hnetwork, if_pos hversion]

theorem run_regular {c : Config} {p : Party} {l : List PartyAction}
    (h : run Party.step (.start c) l = some p) : Regular p ∧ p.config = c := by
  refine run_keeps (I := fun p => Regular p ∧ p.config = c) ?_ ⟨start_regular c, rfl⟩ h
  rintro p action p' ⟨hp, hconfig⟩ hstep
  obtain ⟨hp', hconfig'⟩ := step_regular hp hstep
  exact ⟨hp', hconfig'.trans hconfig⟩

/-- Whatever the other side sends and however the goroutines interleave, `Handshake` returns
nil only if the status was sent first and the progress after it, and the first message of the
other side was a status of a size that is allowed, with the same genesis, network and
version. -/
theorem handshake_sound {c : Config} {p : Party} {l : List PartyAction}
    (h : run Party.step (.start c) l = some p) {taken : Nat}
    (hmain : p.main = .returned none taken) :
    p.sent.head? = some (statusOf c) ∧ progressOf c ∈ p.sent ∧
    ∃ msg status, p.got = some msg ∧ msg.code = statusMsg ∧
      msg.payload.length ≤ protocolMaxMsgSize ∧
      decodeStatus msg.payload = some status ∧ status.genesis = c.genesis ∧
        status.networkID = c.network ∧ status.protocolVersion.toNat = c.version := by
  obtain ⟨hregular, hconfig⟩ := run_regular h
  obtain ⟨pushed, hpushed⟩ := hregular.pushed
  obtain ⟨hwriter, hreader⟩ := hpushed.nil_results hmain
  have hheard := hregular.heard none (by rw [hreader]; rfl)
  rw [← hconfig]
  refine ⟨hregular.status (by rw [hwriter]; rfl) (by rw [hwriter]; simp),
    hregular.progress (by rw [hwriter]; rfl), ?_⟩
  cases hgot : p.got with
  | none =>
    rw [hgot] at hheard
    cases hheard
  | some msg =>
    rw [hgot] at hheard
    obtain ⟨hcode, hsize, status, hstatus⟩ := readStatus_eq_none.mp hheard.symm
    exact ⟨msg, status, rfl, hcode, hsize, hstatus⟩

/-- A node of version 62 in the network 1. -/
def node62 : Config := ⟨62, 1, ⟨List.replicate 32 0, rfl⟩, []⟩

/-- The run of a handshake with a node that has the same configuration. -/
def sameStatus : List PartyAction :=
  [.sendStatus .ok, .read (some (statusOf node62)), .pushReader,
    .sendProgress .ok, .pushWriter, .take,
    .take]

theorem handshake_sound_sameStatus :
    ∃ p, run Party.step (.start node62) sameStatus = some p ∧ progressOf node62 ∈ p.sent := by
  have hrun : (run Party.step (.start node62) sameStatus).map (·.main) =
      some (.returned none 2) := by
    decide +kernel
  obtain ⟨p, hp, hmain⟩ := Option.map_eq_some_iff.mp hrun
  exact ⟨p, hp, (handshake_sound hp hmain).2.1⟩

/-! ## The goroutines after the return -/

section Ends

variable {p p' : Party} {r : Result} {taken : Nat}

/-- Both goroutines of the handshake have ended. -/
def Ended (p : Party) : Prop := (∃ failed r, p.writer = .done failed r) ∧
    ∃ r, p.reader = .done r

theorem Pushed.count {pushed : List Result} (h : Pushed p pushed) :
    p.errc.length + p.main.taken = p.writer.pushed.length + p.reader.pushed.length := by
  have htaken := h.taken
  rw [h.queue, List.length_drop, ← List.length_append, ← h.all.length_eq]
  omega

/-- A status that was not sent takes a place in `errc` of its own, and nobody empties it. -/
theorem not_ended (h : Regular p) (hmain : p.main = .returned r 0)
    (hfailed : p.writer.failed = true) :
    ¬ Ended p := by
  rintro ⟨⟨failed, last, hwriter⟩, heard, hreader⟩
  obtain ⟨pushed, hpushed⟩ := h.pushed
  have hcount := hpushed.count
  have hroom := hpushed.room
  rw [hwriter] at hfailed
  obtain rfl : failed = true := hfailed
  rw [hmain, hwriter, hreader] at hcount
  have hthree : p.errc.length = 3 := hcount
  rw [hthree] at hroom
  exact absurd hroom (by decide)

def writerLeft : Writer → Nat
  | .status => 3
  | .complaining => 3
  | .progress _ => 2
  | .reporting _ _ => 1
  | .done _ _ => 0

def readerLeft : Reader → Nat
  | .reading => 2
  | .reporting _ => 1
  | .done _ => 0

/-- Nobody empties `errc` any more, but there is room for what is still to come. -/
structure Fits (r : Result) (taken : Nat) (p : Party) : Prop where
  regular : Regular p
  main : p.main = .returned r taken
  fits : taken = 0 → p.writer.failed = false

theorem Fits.step (h : Fits r taken p) {action : PartyAction} (hstep : p.step action = some p')
    (hfailed : p'.writer.failed = p.writer.failed) : Fits r taken p' where
  regular := (step_regular h.regular hstep).1
  main := (step_frame hstep).returned r taken h.main
  fits hzero := hfailed.trans (h.fits hzero)

theorem Fits.room (h : Fits r taken p)
    (hpushed : p.writer.pushed.length + p.reader.pushed.length ≤ 1 + p.writer.failed.toNat) :
    p.errc.length < errcSize := by
  obtain ⟨pushed, hcount⟩ := h.regular.pushed
  have hcount := hcount.count
  have hfits := h.fits
  rw [h.main] at hcount
  have hcount : p.errc.length + taken = _ := hcount
  show p.errc.length < 2
  cases hfailed : p.writer.failed with
  | false =>
    rw [hfailed, Bool.toNat_false] at hpushed
    omega
  | true =>
    have hne : taken ≠ 0 := by
      intro hzero
      rw [hfits hzero] at hfailed
      cases hfailed
    rw [hfailed, Bool.toNat_true] at hpushed
    omega

theorem writer_pushed_length (w : Writer) : w.pushed.length ≤ 1 + w.failed.toNat := by
  cases w with
  | status => decide
  | complaining => decide
  | progress failed => cases failed <;> decide
  | reporting failed r => cases failed <;> simp [Writer.pushed, Writer.failed]
  | done failed r => cases failed <;> simp [Writer.pushed, Writer.failed]

theorem Fits.writer_moves (h : Fits r taken p)
    (hwriter : ∀ failed r, p.writer ≠ .done failed r) :
    ∃ action p', p.step action = some p' ∧ Fits r taken p' ∧
      writerLeft p'.writer < writerLeft p.writer ∧
      p'.reader = p.reader := by
  have hreader : p.reader.pushed.length ≤ 1 := by
    rcases reader_pushed p.reader with hr | ⟨v, hr⟩ <;> rw [hr] <;> simp [Reader.pushed]
  cases hw : p.writer with
  | status =>
    have hstep : p.step (.sendStatus .ok) = some _ := if_pos hw
    refine ⟨_, _, hstep, h.step hstep (by rw [hw]; rfl), ?_, rfl⟩
    exact (by decide : 2 < 3)
  | complaining =>
    have hroom := h.room (by
      rw [hw]
      simp only [Writer.pushed, Writer.failed, List.length_nil, Bool.toNat_true]
      omega)
    have hstep : p.step .pushWriter =
        some { p with writer := .progress true, errc := p.errc ++ [some .write] } := by
      simp only [Party.step, if_pos hroom, hw]
    exact ⟨_, _, hstep, h.step hstep (by rw [hw]; rfl), (by decide : 2 < 3), rfl⟩
  | progress failed =>
    have hstep : p.step (.sendProgress .ok) = some { p with
        writer := .reporting failed none
        sent := p.deliver .ok ⟨progressMsg, p.config.progress⟩ } := by
      simp only [Party.step, hw]
      rfl
    exact ⟨_, _, hstep, h.step hstep (by rw [hw]; rfl), (by decide : 1 < 2), rfl⟩
  | reporting failed result =>
    have hroom := h.room (by
      rw [hw]
      cases failed <;> simp [Writer.pushed, Writer.failed] <;> omega)
    have hstep : p.step .pushWriter =
        some { p with writer := .done failed result, errc := p.errc ++ [result] } := by
      simp only [Party.step, if_pos hroom, hw]
    exact ⟨_, _, hstep, h.step hstep (by rw [hw]; rfl), (by decide : 0 < 1), rfl⟩
  | done failed result => exact absurd hw (hwriter failed result)

theorem Fits.reader_moves (h : Fits r taken p) (hreader : ∀ r, p.reader ≠ .done r) :
    ∃ action p', p.step action = some p' ∧ Fits r taken p' ∧ p'.writer = p.writer ∧
      readerLeft p'.reader < readerLeft p.reader := by
  cases hr : p.reader with
  | reading =>
    have hstep : p.step (.read none) = some _ := if_pos hr
    exact ⟨_, _, hstep, h.step hstep rfl, rfl, (by decide : 1 < 2)⟩
  | reporting result =>
    have hroom := h.room (by
      rw [hr]
      exact writer_pushed_length p.writer)
    have hstep : p.step .pushReader =
        some { p with reader := .done result, errc := p.errc ++ [result] } := by
      simp only [Party.step, if_pos hroom, hr]
    exact ⟨_, _, hstep, h.step hstep rfl, rfl, (by decide : 0 < 1)⟩
  | done result => exact absurd hr (hreader result)

theorem Fits.ends (h : Fits r taken p) : ∃ l p', run Party.step p l = some p' ∧ Ended p' := by
  have hprogress : ∀ p, Fits r taken p → ¬ Ended p →
    ∃ action p', p.step action = some p' ∧
      Fits r taken p' ∧
      writerLeft p'.writer + readerLeft p'.reader < writerLeft p.writer + readerLeft p.reader := by
    intro p h hended
    by_cases hwriter : ∃ failed r, p.writer = .done failed r
    · obtain ⟨action, p', hstep, hp', hw, hlt⟩ :=
        h.reader_moves fun v hr => hended ⟨hwriter, v, hr⟩
      exact ⟨action, p', hstep, hp', by rw [hw]; exact Nat.add_lt_add_left hlt _⟩
    · obtain ⟨action, p', hstep, hp', hlt, hr⟩ :=
        h.writer_moves fun failed v hw => hwriter ⟨failed, v, hw⟩
      exact ⟨action, p', hstep, hp', by rw [hr]; exact Nat.add_lt_add_right hlt _⟩
  obtain ⟨l, p', hrun, -, hended⟩ := run_ends _ hprogress h
  exact ⟨l, p', hrun, hended⟩

/-- After `Handshake` has returned, its goroutines can end, except where the timeout came
before any result was taken and the status could not be sent: `errc` has room for two of
the three results, and the last one is waited with for ever. -/
theorem goroutines_end_iff {c : Config} {l : List PartyAction}
    (h : run Party.step (.start c) l = some p) (hmain : p.main = .returned r taken) :
    (∃ more p', run Party.step p more = some p' ∧ Ended p') ↔
      ¬ (taken = 0 ∧ p.writer.failed = true) := by
  obtain ⟨hregular, -⟩ := run_regular h
  constructor
  · rintro ⟨more, p', hrun, hended⟩ ⟨rfl, hfailed⟩
    have hstays : Regular p' ∧ p'.main = .returned r 0 ∧ p'.writer.failed = true := by
      refine run_keeps (I := fun p => Regular p ∧ p.main = .returned r 0 ∧
        p.writer.failed = true)
        ?_ ⟨hregular, hmain, hfailed⟩ hrun
      rintro p action p' ⟨hp, hmain, hfailed⟩ hstep
      have hframe := step_frame hstep
      exact ⟨(step_regular hp hstep).1, hframe.returned _ _ hmain, hframe.failed hfailed⟩
    exact not_ended hstays.1 hstays.2.1 hstays.2.2 hended
  · intro hnot
    have hfits : Fits r taken p := ⟨hregular, hmain, fun hzero => by simpa [hzero] using hnot⟩
    exact hfits.ends

/-- The status is not sent before the timeout. -/
theorem goroutines_end_iff_timeout :
    ∃ p, run Party.step (.start node62) [.sendStatus (.failed false), .timeout] = some p ∧
      ¬ ∃ more p', run Party.step p more = some p' ∧ Ended p' := by
  have hrun : (run Party.step (.start node62) [.sendStatus (.failed false), .timeout]).map
      (fun p => (p.main, p.writer)) = some (.returned (some .readTimeout) 0, .complaining) := by
    decide +kernel
  obtain ⟨p, hp, heq⟩ := Option.map_eq_some_iff.mp hrun
  obtain ⟨hmain, hwriter⟩ := Prod.mk.inj heq
  refine ⟨p, hp, fun hended => (goroutines_end_iff hp hmain).mp hended ⟨rfl, ?_⟩⟩
  rw [hwriter]
  rfl

end Ends

/-! ## Two nodes -/

section Pair

/-- Each side is regular, and what it has read is the first message of the other. -/
structure Met (p : Pair) : Prop where
  regular : ∀ side, Regular (p.at side)
  heard : ∀ side msg, (p.at side).got = some msg → (p.at side.other).sent.head? = some msg

variable {p p' : Pair} {side : Side}

@[simp] theorem set_at (p : Pair) (side : Side) (q : Party) : (p.set side q).at side = q := by
  cases side <;> rfl

@[simp] theorem set_other (p : Pair) (side : Side) (q : Party) :
    (p.set side q).at side.other = p.at side.other := by
  cases side <;> rfl

@[simp] theorem other_other (side : Side) : side.other.other = side := by
  cases side <;> rfl

theorem side_cases (side side' : Side) : side' = side ∨ side' = side.other := by
  cases side <;> cases side' <;> simp [Side.other]

/-- One side moves, and the other has heard it only if there was something to hear. -/
theorem Met.set (h : Met p) {q : Party} (hq : Regular q)
    (hgot : ∀ msg, q.got = some msg → (p.at side.other).sent.head? = some msg)
    (hsent : ∃ more, q.sent = (p.at side).sent ++ more) : Met (p.set side q) := by
  obtain ⟨more, hmore⟩ := hsent
  refine ⟨fun side' => ?_, fun side' msg hmsg => ?_⟩
  · rcases side_cases side side' with rfl | rfl
    · rwa [set_at]
    · rw [set_other]
      exact h.regular _
  · rcases side_cases side side' with rfl | rfl
    · rw [set_at] at hmsg
      rw [set_other]
      exact hgot msg hmsg
    · rw [set_other] at hmsg
      have hhead := h.heard _ msg hmsg
      rw [other_other] at hhead ⊢
      rw [set_at, hmore, List.head?_append, hhead]
      rfl

theorem Met.step_side (h : Met p) {action : PartyAction} {q : Party}
    (hstep : (p.at side).step action = some q)
    (hread : ∀ msg, action = .read (some msg) → (p.at side.other).sent.head? = some msg) :
    Met (p.set side q) := by
  have hframe := step_frame hstep
  refine h.set (step_regular (h.regular side) hstep).1 (fun msg hmsg => ?_) hframe.sent
  rcases hframe.got with hsame | ⟨read, rfl, hnew⟩
  · exact h.heard side msg (hsame ▸ hmsg)
  · rw [hnew] at hmsg
    subst hmsg
    exact hread msg rfl

/-- Who has finished the handshake has sent its status. -/
theorem Regular.talk {p : Party} (h : Regular p) {taken : Nat}
    (hmain : p.main = .returned none taken)
    (msg : Msg) : Regular { p with sent := p.sent ++ [msg] } := by
  obtain ⟨pushed, hpushed⟩ := h.pushed
  obtain ⟨hwriter, -⟩ := hpushed.nil_results hmain
  have hhead := h.status (by rw [hwriter]; rfl) (by rw [hwriter]; simp)
  have hkept : (p.sent ++ [msg]).head? = some (statusOf p.config) := by
    rw [List.head?_append, hhead]
    rfl
  refine ⟨⟨pushed, hpushed.same rfl rfl rfl rfl⟩, h.heard, fun heq =>
    ?_, fun msg' hmsg' => ?_,
    fun _ _ => hkept, fun hr => List.mem_append_left _ (h.progress hr), h.written⟩
  · cases hwriter.symm.trans heq
  · have hmsg' : (p.sent ++ [msg]).head? = some msg' := hmsg'
    rw [hkept] at hmsg'
    cases hmsg'
    exact .inl rfl

/-- A step of the pair is one of a side that hears the other's first message, if any, or
a message of a side that has finished the handshake. -/
theorem step_side {action : PairAction} (h : p.step action = some p') :
    ∃ side q, p' = p.set side q ∧
      ((∃ action, (p.at side).step action = some q ∧
          ∀ msg, action = .read (some msg) → (p.at side.other).sent.head? = some msg) ∨
        ∃ taken msg, (p.at side).main = .returned none taken ∧
          q = { p.at side with sent := (p.at side).sent ++ [msg] }) := by
  cases action with
  | own side action =>
    simp only [Pair.step] at h
    split at h
    · cases h
    · next hother =>
      obtain ⟨q, hq, rfl⟩ := Option.map_eq_some_iff.mp h
      exact ⟨side, q, rfl, .inl ⟨action, hq, fun msg heq => absurd heq (hother msg)⟩⟩
  | hear side =>
    simp only [Pair.step] at h
    split at h
    · cases h
    · next msg rest hsent =>
      obtain ⟨q, hq, rfl⟩ := Option.map_eq_some_iff.mp h
      refine ⟨side, q, rfl, .inl ⟨_, hq, fun msg' heq => ?_⟩⟩
      cases heq
      rw [hsent]
      rfl
  | talk side msg =>
    simp only [Pair.step] at h
    split at h
    · next taken hmain =>
      cases h
      exact ⟨side, _, rfl, .inr ⟨taken, msg, hmain, rfl⟩⟩
    · cases h

theorem step_met (h : Met p) {action : PairAction} (hstep : p.step action = some p') :
    Met p' ∧ ∀ side, (p'.at side).config = (p.at side).config := by
  obtain ⟨side, q, rfl, hside⟩ := step_side hstep
  have hconfigs : q.config = (p.at side).config →
      ∀ side', ((p.set side q).at side').config = (p.at side').config := by
    intro hq side'
    rcases side_cases side side' with rfl | rfl
    · rw [set_at, hq]
    · rw [set_other]
  rcases hside with ⟨action, hq, hread⟩ | ⟨taken, msg, hmain, rfl⟩
  · exact ⟨h.step_side hq hread, hconfigs (step_regular (h.regular side) hq).2⟩
  · exact ⟨h.set ((h.regular side).talk hmain msg) (h.heard side)
      ⟨[msg], rfl⟩, hconfigs rfl⟩

theorem start_met (left right : Config) : Met (.start left right) where
  regular side := by cases side <;> exact start_regular _
  heard side msg hmsg := by cases side <;> cases hmsg

/-- The side sees its own genesis and network in the other's status, and its version. -/
def Agrees (p : Pair) (side : Side) : Prop :=
  (p.at side.other).config.genesis = (p.at side).config.genesis ∧
    (p.at side.other).config.network = (p.at side).config.network ∧
    (UInt32.ofNat (p.at side.other).config.version).toNat = (p.at side).config.version

theorem readStatus_statusOf (p : Pair) (side : Side) :
    readStatus (p.at side).config (statusOf (p.at side.other).config) = none ↔ Agrees p side := by
  have hsize : (encodeStatus (p.at side.other).config.status).length ≤ protocolMaxMsgSize :=
    (encodeStatus_length _).trans (by decide)
  rw [readStatus_eq_none]
  simp only [statusOf, decodeStatus_encode, Option.some.injEq, exists_eq_left', true_and, hsize]
  rfl

theorem mem_writer_pushed {w : Writer} {r : Result} (h : r ∈ w.pushed) :
    r = some .write ∨ w.result = some r := by
  cases w with
  | status => cases h
  | complaining => cases h
  | progress failed => cases failed <;> simp_all [Writer.pushed]
  | reporting failed v => cases failed <;> simp_all [Writer.pushed]
  | done failed v => cases failed <;> simp_all [Writer.pushed, Writer.result, eq_comm]

/-- `Handshake` returns what a goroutine has pushed, or the timeout. -/
theorem Regular.returns {p : Party} (h : Regular p) {r : Result} {taken : Nat}
    (hmain : p.main = .returned r taken) :
    r = some .readTimeout ∨ r = none ∨ r = some .write ∨
      r = HandshakeRuns.heard p.config p.got := by
  obtain ⟨pushed, hpushed⟩ := h.pushed
  have hheeds := hpushed.heeds
  rw [hmain] at hheeds
  rcases hheeds.2 with htimeout | hmem
  · exact .inl htimeout
  · have hmem := (hpushed.all.mem_iff).mp (List.mem_of_mem_take hmem)
    rcases List.mem_append.mp hmem with hwriter | hreader
    · rcases mem_writer_pushed hwriter with hwrite | hresult
      · exact .inr (.inr (.inl hwrite))
      · rcases h.written r hresult with hnone | hwrite
        · exact .inr (.inl hnone)
        · exact .inr (.inr (.inl hwrite))
    · rcases reader_pushed p.reader with hr | ⟨v, hr⟩
      · rw [hr] at hreader
        cases hreader
      · rw [hr] at hreader
        obtain rfl : r = v := by simpa [Reader.pushed] using hreader
        exact .inr (.inr (.inr (h.heard r (by rw [hr]; rfl))))

/-- What a side has heard of the other is its status, or its progress if the status could
not be sent. -/
theorem Met.first (h : Met p) {msg : Msg} (hgot : (p.at side).got = some msg) :
    msg = statusOf (p.at side.other).config ∨
      msg = progressOf (p.at side.other).config ∧ (p.at side.other).writer.failed = true := by
  have hhead := h.heard side msg hgot
  have hother := h.regular side.other
  cases hfailed : (p.at side.other).writer.failed with
  | true =>
    rcases hother.first msg hhead with hstatus | hprogress
    · exact .inl hstatus
    · exact .inr ⟨hprogress, rfl⟩
  | false =>
    have hne : (p.at side.other).writer ≠ .status := by
      intro hwriter
      rw [hother.unsent hwriter] at hhead
      cases hhead
    have hstatus := hother.status hfailed hne
    rw [hhead] at hstatus
    exact .inl (Option.some.inj hstatus)

/-- Two nodes shake hands over one connection, in any interleaving and with sends and reads
that may fail. A side returns nil only if the other has its genesis and network and its
version. If they agree, the error of a side is one of the connection, the timeout, or that
the other's progress came without a status, which then could not be sent. -/
theorem handshake_agrees {left right : Config} {l : List PairAction}
    (h : run Pair.step (.start left right) l = some p) {r : Result} {taken : Nat}
    (hmain : (p.at side).main = .returned r taken) :
    (r = none → Agrees (.start left right) side) ∧
    (Agrees (.start left right) side →
      r = none ∨ r = some .write ∨ r = some .read ∨ r = some .readTimeout ∨
        r = some (.noStatusMsg progressMsg) ∧ (p.at side.other).writer.failed = true) := by
  obtain ⟨hmet, hconfigs⟩ : Met p ∧
      ∀ side, (p.at side).config = ((Pair.start left right).at side).config := by
    refine run_keeps (I := fun p => Met p ∧
      ∀ side, (p.at side).config = ((Pair.start left right).at side).config) ?_
      ⟨start_met left right, fun _ => rfl⟩ h
    rintro p action p' ⟨hp, hconfigs⟩ hstep
    obtain ⟨hp', hsame⟩ := step_met hp hstep
    exact ⟨hp', fun side => (hsame side).trans (hconfigs side)⟩
  have hagrees : Agrees (.start left right) side ↔ Agrees p side := by
    simp only [Agrees, hconfigs]
  rw [hagrees, ← readStatus_statusOf]
  constructor
  · rintro rfl
    obtain ⟨pushed, hpushed⟩ := (hmet.regular side).pushed
    obtain ⟨-, hreader⟩ := hpushed.nil_results hmain
    have hheard := (hmet.regular side).heard none (by rw [hreader]; rfl)
    cases hgot : (p.at side).got with
    | none =>
      rw [hgot] at hheard
      cases hheard
    | some msg =>
      rw [hgot] at hheard
      rcases hmet.first hgot with rfl | ⟨rfl, -⟩
      · exact hheard.symm
      · cases hheard
  · intro hstatus
    rcases (hmet.regular side).returns hmain with htimeout | hnone | hwrite | hheard
    · exact .inr (.inr (.inr (.inl htimeout)))
    · exact .inl hnone
    · exact .inr (.inl hwrite)
    · cases hgot : (p.at side).got with
      | none =>
        rw [hgot] at hheard
        exact .inr (.inr (.inl hheard))
      | some msg =>
        rw [hgot] at hheard
        rcases hmet.first hgot with rfl | ⟨rfl, hfailed⟩
        · exact .inl (hheard.trans hstatus)
        · exact .inr (.inr (.inr (.inr ⟨hheard, hfailed⟩)))

/-- The left node finishes its handshake while the right one has sent only its status. -/
def leftFirst : List PairAction :=
  [.own .left (.sendStatus .ok), .own .right (.sendStatus .ok), .own .left (.sendProgress .ok),
    .own .left .pushWriter, .own .left .take, .hear .left, .own .left .pushReader, .own .left .take,
    .talk .left ⟨progressMsg, []⟩]

theorem handshake_agrees_leftFirst :
    (run Pair.step (.start node62 node62) leftFirst).isSome ∧
      Agrees (.start node62 node62) .left := by
  have hrun : (run Pair.step (.start node62 node62) leftFirst).map (fun p => (p.at .left).main) =
      some (.returned none 2) := by
    decide +kernel
  obtain ⟨p, hp, hmain⟩ := Option.map_eq_some_iff.mp hrun
  have hmain : (p.at .left).main = .returned none 2 := hmain
  exact ⟨by rw [hp]; rfl, (handshake_agrees hp hmain).1 rfl⟩

end Pair

end MiniOpera.HandshakeRuns
