import MiniOpera.Migrations

/-!
# Chains of other applications

`Begin` names the application a chain is for, so that a store written by one
application is not migrated by another. `Exec` never reads that name
(`exec_eq_of_steps`): it looks for the stored ID among the digests of the step
names. What the second chain does to a store of the first is therefore decided
by the name of the one step that was the last to succeed (`foreign_refused_iff`).
-/

namespace MiniOpera.ForeignChains
open GoRuntime Migrations

variable {κ σ ε σ' ε' : Type}

/-- The name given to `Begin`. -/
def appName : Migration σ ε → GoString
  | .begin appName => appName
  | .link prev _ _ _ => appName prev

/-- `Exec` wrote the ID of the store. -/
def Wrote [IDStore κ] (keccak256 : GoString → Bytes 32) (m : Migration σ ε)
    (c : Context κ σ ε) : Prop :=
  applied (m.exec keccak256 c).1.log ≠ applied c.log

/-- An error is returned, no step has run and the ID is unchanged. -/
def Refuses [IDStore κ] (keccak256 : GoString → Bytes 32) (m : Migration σ ε)
    (c : Context κ σ ε) : Prop :=
  (m.exec keccak256 c).2 ≠ none ∧ (m.exec keccak256 c).1.log = c.log ∧
    IDStore.getID (m.exec keccak256 c).1.curr = IDStore.getID c.curr

section Chains

variable [IDStore κ] {keccak256 : GoString → Bytes 32}

/-- Chains with the same steps do the same, whatever application they are for. -/
theorem exec_eq_of_steps {m m' : Migration σ ε} (h : m.steps = m'.steps) (c : Context κ σ ε) :
    m.exec keccak256 c = m'.exec keccak256 c := by
  induction m generalizing m' with
  | begin appName =>
    cases m' with
    | begin appName' => rfl
    | link prev name named f => simp [Migration.steps] at h
  | link prev name named f ih =>
    cases m' with
    | begin appName' => simp [Migration.steps] at h
    | link prev' name' named' f' =>
      obtain ⟨hprev, hlast⟩ := List.append_inj' h rfl
      cases hlast
      rw [Migration.exec, Migration.exec, ih hprev]
      rfl

/-- After `Exec` the store has its old ID or that of the last step that succeeded. -/
theorem exec_last (keccak256 : GoString → Bytes 32) (m : Migration σ ε) (c : Context κ σ ε) :
    applied (m.exec keccak256 c).1.log = applied c.log ∨
      ∃ s ∈ m.steps, IDStore.getID (m.exec keccak256 c).1.curr = nameID keccak256 s.name ∧
        (applied (m.exec keccak256 c).1.log).getLast? = some s.name := by
  induction m with
  | begin appName =>
    refine .inl ?_
    rw [Migration.exec]
    split <;> rfl
  | link prev name named f ih =>
    -- a step of the chain before is a step of the whole chain
    have hprev : ∀ P : Step σ ε → Prop, (∃ s ∈ prev.steps, P s) →
        ∃ s ∈ (Migration.link prev name named f).steps, P s := by
      rintro P ⟨s, hs, hP⟩
      exact ⟨s, List.mem_append_left _ hs, hP⟩
    rw [Migration.exec]
    by_cases hid : IDStore.getID c.curr = (Migration.link prev name named f).ID keccak256
    · rw [if_pos hid]
      exact .inl rfl
    · rw [if_neg hid]
      rcases hcall : prev.exec keccak256 c with ⟨c', err⟩
      rw [hcall] at ih
      cases err with
      | some err => exact ih.imp_right (hprev _)
      | none =>
        rcases hrun : f c'.data with ⟨data, err⟩
        cases err with
        | some err =>
          -- a step that failed wrote nothing
          simp only [hrun, applied_append]
          have hnone : applied [LogLine.failed name err] = [] := rfl
          rw [hnone, List.append_nil]
          exact ih.imp_right (hprev _)
        | none =>
          simp only [hrun, applied_append, IDStore.getID_setID]
          refine .inr ⟨⟨name, f⟩, List.mem_append_right _
            (List.mem_singleton_self _), rfl, ?_⟩
          exact List.getLast?_concat ..

/-- With an ID the chain knows, `Exec` runs what comes after one of its steps. -/
theorem exec_known {m : Migration σ ε} {c : Context κ σ ε}
    (h : IDStore.getID c.curr ∈ m.versions keccak256) :
    ∃ ss, m.exec keccak256 c = runSteps keccak256 ss c := by
  induction m with
  | begin appName =>
    refine ⟨[], ?_⟩
    rw [Migration.exec, if_neg, runSteps]
    simpa [Migration.versions, Migration.steps] using h
  | link prev name named f ih =>
    by_cases hid : IDStore.getID c.curr = nameID keccak256 name
    · exact ⟨[], by rw [Migration.exec, Migration.ID_link, if_pos hid, runSteps]⟩
    · rw [versions_link, List.mem_append, List.mem_singleton] at h
      obtain ⟨ss, hss⟩ := ih (h.resolve_right hid)
      exact ⟨_, exec_link hid hss⟩

/-- Steps that are run leave a line in the log or return nil. -/
theorem not_refuses_of_runSteps {m : Migration σ ε} {c : Context κ σ ε}
    {ss : List (Step σ ε)}
    (h : m.exec keccak256 c = runSteps keccak256 ss c) : ¬ Refuses keccak256 m c := by
  rintro ⟨herr, hlog, -⟩
  obtain ⟨i, -, hend⟩ := runSteps_ended keccak256 ss c
  rw [h] at herr hlog
  cases hend with
  | done all logged returned => exact herr returned
  | stopped next logged returned =>
    rw [logged] at hlog
    have hlen := congrArg List.length hlog
    simp only [List.length_append, List.length_singleton] at hlen
    omega

theorem refuses_iff (m : Migration σ ε) (c : Context κ σ ε) :
    Refuses keccak256 m c ↔ IDStore.getID c.curr ∉ m.versions keccak256 := by
  constructor
  · intro h hknown
    obtain ⟨ss, hss⟩ := exec_known hknown
    exact not_refuses_of_runSteps hss h
  · intro h
    rw [Refuses, exec_unknown h]
    exact ⟨Option.some_ne_none _, rfl, rfl⟩

theorem nameID_inj {name name' : GoString} :
    nameID keccak256 name = nameID keccak256 name' ↔ keccak256 name = keccak256 name' :=
  ⟨fun h => Bytes.ext_data (hex_injective h), fun h => by rw [nameID, nameID, h]⟩

/-- Foreign chains are refused as far as their steps have other names. After an
`Exec` of `m` that wrote the ID, let `s` be the last step that succeeded. `Exec`
of any other chain on that store returns an error, runs nothing and leaves the
ID alone exactly if none of its steps has a name with the digest of that of
`s`; the names given to `Begin` play no part. -/
theorem foreign_refused_iff (keccak256 : GoString → Bytes 32) (m : Migration σ ε)
    (c : Context κ σ ε) (wrote : Wrote keccak256 m c) :
    ∃ s ∈ m.steps, (applied (m.exec keccak256 c).1.log).getLast? = some s.name ∧
      ∀ (m' : Migration σ' ε') (data : σ') (log : List (LogLine ε')),
        Refuses keccak256 m' ⟨(m.exec keccak256 c).1.curr, data, log⟩ ↔
          ∀ t ∈ m'.steps, keccak256 t.name ≠ keccak256 s.name := by
  obtain ⟨s, hs, hid, hlast⟩ := (exec_last keccak256 m c).resolve_left wrote
  refine ⟨s, hs, hlast, ?_⟩
  intro m' data log
  rw [refuses_iff, hid, Migration.versions, List.mem_cons, List.mem_map, not_or]
  constructor
  · rintro ⟨-, hnot⟩ t ht heq
    exact hnot ⟨t, ht, nameID_inj.mpr heq⟩
  · intro h
    refine ⟨nameID_ne_nil _ _, ?_⟩
    rintro ⟨t, ht, heq⟩
    exact h t ht (nameID_inj.mp heq)

end Chains

/-! ## The chains of the test -/

theorem first_named : ascii "01" ≠ [] := by decide

theorem second_named : ascii "02" ≠ [] := by decide

/-- The first step of the native chain. -/
def nativeFirst : Migration Nat GoString :=
  .link (.begin (ascii "native")) (ascii "01") first_named fun num => (num + 1, none)

def native : Migration Nat GoString :=
  .link nativeFirst (ascii "02") second_named fun num => (num + 1, none)

/-- A chain of another application whose first step has a name of the native one. -/
def nonnative : Migration Nat GoString :=
  .link (.begin (ascii "nonnative")) (ascii "01") first_named fun _ => (999, none)

def nonnativeNext : Migration Nat GoString :=
  .link nonnative (ascii "02") second_named fun _ => (999, none)

/-- The store of the native chain, before its first step. -/
def fresh : Context KvdbIDStore Nat GoString := ⟨.new fun _ => none, 1, []⟩

/-- As in the test: the step with the shared name is not the last that ran. -/
theorem foreign_refused_iff_native :
    Wrote keccakOfNames native fresh ∧
      Refuses keccakOfNames nonnative ⟨(native.exec keccakOfNames fresh).1.curr, 0, []⟩ := by
  have wrote : Wrote keccakOfNames native fresh := by
    rw [Wrote]
    decide +kernel
  refine ⟨wrote, ?_⟩
  obtain ⟨s, -, hlast, hiff⟩ :=
    @foreign_refused_iff KvdbIDStore Nat GoString Nat GoString _ keccakOfNames native fresh wrote
  have hname : (applied (native.exec keccakOfNames fresh).1.log).getLast? = some (ascii "02") := by
    decide +kernel
  rw [hname] at hlast
  rw [hiff, ← Option.some.inj hlast]
  decide +kernel

/-- The native chain has run its step "01". The chain of the other application
takes that for its own: it returns nil, or goes on with its next step. -/
theorem foreign_chain_runs :
    appName nativeFirst ≠ appName nonnative ∧ Wrote keccakOfNames nativeFirst fresh ∧
      (nonnative.exec keccakOfNames ⟨(nativeFirst.exec keccakOfNames fresh).1.curr, 0, []⟩).2 =
        none ∧
      applied (nonnativeNext.exec keccakOfNames
        ⟨(nativeFirst.exec keccakOfNames fresh).1.curr, 0, []⟩).1.log = [ascii "02"] ∧
      ¬ Refuses keccakOfNames nonnative
        ⟨(nativeFirst.exec keccakOfNames fresh).1.curr, 0, []⟩ := by
  have hnil : (nonnative.exec keccakOfNames
      ⟨(nativeFirst.exec keccakOfNames fresh).1.curr, 0, []⟩).2 = none := by decide +kernel
  refine ⟨by decide, ?_, hnil, by decide +kernel, fun h => h.1 hnil⟩
  rw [Wrote]
  decide +kernel

end MiniOpera.ForeignChains
