import Mathlib.Data.List.Nodup
import Mathlib.Data.Set.Function
import MiniOpera.Lib.GoRuntime

/-!
# `utils/migration`

A chain of named steps and a store that remembers which of them was the last to
succeed. `Exec` walks back to the step the store names before it runs anything.
A step is a closure over the data it migrates; it may fail, and what it did to
the data before it failed stays done. What `Exec` logs is kept, since it is the
record of which steps ran.

`runSteps` says what the chain is for: run a list of steps in order up to the
first error. `exec_resumes` is the connection, by induction over the chain.
-/

namespace MiniOpera.Migrations
open GoRuntime

/-- A Go string is any sequence of bytes. -/
abbrev GoString := List UInt8

/-- A string literal of the source. -/
def ascii (s : String) : GoString := s.toList.map fun c => UInt8.ofNat c.toNat

/-! ## Identifiers -/

def hexDigit (n : Nat) : UInt8 := if n < 10 then UInt8.ofNat (48 + n) else UInt8.ofNat (87 + n)

/-- `fmt.Sprintf("%x", bytes)`. -/
def hex (bytes : List UInt8) : GoString :=
  bytes.flatMap fun b => [hexDigit (b.toNat / 16), hexDigit (b.toNat % 16)]

theorem hexDigit_inj {a b : Nat} (ha : a < 16) (hb : b < 16) (h : hexDigit a = hexDigit b) :
    a = b := by
  have hd : ∀ i j : Fin 16, hexDigit i = hexDigit j → i = j := by decide
  exact congrArg Fin.val (hd ⟨a, ha⟩ ⟨b, hb⟩ h)

theorem hex_injective : Function.Injective hex := by
  intro as
  induction as with
  | nil =>
    intro bs h
    cases bs with
    | nil => rfl
    | cons b bs => simp [hex] at h
  | cons a as ih =>
    intro bs h
    cases bs with
    | nil => simp [hex] at h
    | cons b bs =>
      simp only [hex, List.flatMap_cons, List.cons_append, List.nil_append, List.cons.injEq] at h
      obtain ⟨hhigh, hlow, hrest⟩ := h
      have ha := a.toNat_lt
      have hb := b.toNat_lt
      have hq := hexDigit_inj (by omega) (by omega) hhigh
      have hr := hexDigit_inj (by omega) (by omega) hlow
      have hab : a.toNat = b.toNat := by omega
      rw [UInt8.toNat_inj.mp hab, ih hrest]

theorem hex_ne_nil {n : Nat} (digest : Bytes (n + 1)) : hex digest.data ≠ [] := by
  intro h
  have hnil : digest.data = [] := hex_injective (h.trans rfl)
  have hsize := digest.size
  rw [hnil] at hsize
  cases hsize

/-- The ID of a step with this name: its digest in hexadecimal. -/
def nameID (keccak256 : GoString → Bytes 32) (name : GoString) : GoString :=
  hex (keccak256 name).data

theorem nameID_ne_nil (keccak256 : GoString → Bytes 32) (name : GoString) :
    nameID keccak256 name ≠ [] := hex_ne_nil _

/-! ## The store of the last ID -/

/-- `IDStore`: what was set is what is got. -/
class IDStore (κ : Type) where
  getID : κ → GoString
  setID : κ → GoString → κ
  getID_setID : ∀ s id, getID (setID s id) = id

/-- `KvdbIDStore`, with the table as a map of keys to values. A failing database
ends the process, so its calls return. -/
structure KvdbIDStore where
  table : GoString → Option (List UInt8)
  key : GoString

def KvdbIDStore.new (table : GoString → Option (List UInt8)) : KvdbIDStore :=
  ⟨table, ascii "id"⟩

def KvdbIDStore.getID (p : KvdbIDStore) : GoString :=
  match p.table p.key with
  | none => []
  | some id => id

def KvdbIDStore.setID (p : KvdbIDStore) (id : GoString) : KvdbIDStore :=
  { p with table := fun k => if k = p.key then some id else p.table k }

instance : IDStore KvdbIDStore where
  getID := KvdbIDStore.getID
  setID := KvdbIDStore.setID
  getID_setID s id := by simp [KvdbIDStore.getID, KvdbIDStore.setID]

/-! ## Chains -/

/-- A step's closure: the data afterwards, and the error if it returned one. -/
abbrev Exec (σ ε : Type) := σ → σ × Option ε

/-- `Migration`. The package builds one with `Begin`, whose `exec` and `prev` are
nil, or with `Next`, which links a step to the chain before it. -/
inductive Migration (σ ε : Type)
  | begin (appName : GoString)
  | link (prev : Migration σ ε) (name : GoString) (named : name ≠ []) (exec : Exec σ ε)

structure Step (σ ε : Type) where
  name : GoString
  exec : Exec σ ε

/-- What `Exec` logs: `'name' migration failed` and `'name' migration has been applied`. -/
inductive LogLine (ε : Type)
  | failed (name : GoString) (err : ε)
  | applied (name : GoString)
  deriving DecidableEq

inductive ExecError (ε : Type)
  | unknownVersion (text : GoString)
  | step (err : ε)
  deriving DecidableEq

/-- What `Exec` reads and changes. -/
structure Context (κ σ ε : Type) where
  curr : κ
  data : σ
  log : List (LogLine ε)

variable {κ σ ε : Type}

namespace Migration

/-- `Next`. A nil `exec` is `none`. -/
def next (m : Migration σ ε) (name : GoString) (exec : Option (Exec σ ε)) :
    Go Empty (Migration σ ε) :=
  if named : name = [] then .error (.panic (.message "empty name"))
  else match exec with
    | none => .error (.panic (.message "empty exec"))
    | some exec => .ok (.link m name named exec)

def name : Migration σ ε → GoString
  | begin appName => appName
  | link _ name _ _ => name

def ID (keccak256 : GoString → Bytes 32) (m : Migration σ ε) : GoString :=
  nameID keccak256 m.name

def unknownVersion (currID : GoString) : ExecError ε :=
  .unknownVersion (ascii "unknown version: " ++ currID)

/-- `Exec`. -/
def exec [IDStore κ] (keccak256 : GoString → Bytes 32) :
    Migration σ ε → Context κ σ ε → Context κ σ ε × Option (ExecError ε)
  | begin _, c =>
    let currID := IDStore.getID c.curr
    if currID ≠ [] then (c, some (unknownVersion currID)) else (c, none)
  | link prev name named exec, c =>
    let currID := IDStore.getID c.curr
    let myID := (link prev name named exec).ID keccak256
    if currID = myID then (c, none)
    else match prev.exec keccak256 c with
      | (c, some err) => (c, some err)
      | (c, none) =>
        match exec c.data with
        | (data, some err) =>
          (⟨c.curr, data, c.log ++ [.failed name err]⟩, some (.step err))
        | (data, none) =>
          (⟨IDStore.setID c.curr myID, data, c.log ++ [.applied name]⟩, none)

@[simp] theorem ID_link (keccak256 : GoString → Bytes 32)
    (prev : Migration σ ε) (name : GoString)
    (named : name ≠ []) (f : Exec σ ε) :
    (link prev name named f).ID keccak256 = nameID keccak256 name := rfl

/-- The steps added by `Next`, first to last. -/
def steps : Migration σ ε → List (Step σ ε)
  | begin _ => []
  | link prev name _ exec => prev.steps ++ [⟨name, exec⟩]

/-- The IDs the chain knows: none at the start, then that of each step. -/
def versions (keccak256 : GoString → Bytes 32) (m : Migration σ ε) : List GoString :=
  [] :: m.steps.map fun s => nameID keccak256 s.name

end Migration

/-! ## What a chain is for -/

/-- Run the steps in order, each once, up to the first error. -/
def runSteps [IDStore κ] (keccak256 : GoString → Bytes 32) :
    List (Step σ ε) → Context κ σ ε → Context κ σ ε × Option (ExecError ε)
  | [], c => (c, none)
  | s :: rest, c =>
    match s.exec c.data with
    | (data, some err) => (⟨c.curr, data, c.log ++ [.failed s.name err]⟩, some (.step err))
    | (data, none) =>
      runSteps keccak256 rest
        ⟨IDStore.setID c.curr (nameID keccak256 s.name), data, c.log ++ [.applied s.name]⟩

section Chains

variable [IDStore κ] {keccak256 : GoString → Bytes 32}

theorem runSteps_append (ss : List (Step σ ε)) (s : Step σ ε) (c : Context κ σ ε) :
    runSteps keccak256 (ss ++ [s]) c =
      match runSteps keccak256 ss c with
      | (c, some err) => (c, some err)
      | (c, none) => runSteps keccak256 [s] c := by
  induction ss generalizing c with
  | nil => rfl
  | cons t ss ih =>
    rw [List.cons_append, runSteps, runSteps]
    split
    · rfl
    · exact ih _

/-- The last step of a chain, when the steps before it were not the last to run. -/
theorem exec_link {prev : Migration σ ε} {name : GoString} {named : name ≠ []} {f : Exec σ ε}
    {c : Context κ σ ε} (hne : IDStore.getID c.curr ≠ nameID keccak256 name)
    {ss : List (Step σ ε)} (hprev : prev.exec keccak256 c = runSteps keccak256 ss c) :
    (Migration.link prev name named f).exec keccak256 c =
      runSteps keccak256 (ss ++ [⟨name, f⟩]) c := by
  rw [Migration.exec, Migration.ID_link, if_neg hne, hprev, runSteps_append]
  split
  · rfl
  · simp only [runSteps]

/-- The IDs of a chain whose steps have different names, hashed without a collision. -/
theorem versions_nodup {m : Migration σ ε} (distinct : (m.steps.map Step.name).Nodup)
    (inj : Set.InjOn keccak256 { n | n ∈ m.steps.map Step.name }) :
    (m.versions keccak256).Nodup := by
  have hid : Set.InjOn (fun n => nameID keccak256 n) { n | n ∈ m.steps.map Step.name } := by
    intro a ha b hb h
    exact inj ha hb (Bytes.ext_data (hex_injective h))
  have hmap : (m.steps.map fun s => nameID keccak256 s.name) =
      (m.steps.map Step.name).map fun n => nameID keccak256 n := by
    rw [List.map_map]; rfl
  rw [Migration.versions, List.nodup_cons, hmap]
  refine ⟨?_, distinct.map_on fun a ha b hb h => hid ha hb h⟩
  intro hmem
  obtain ⟨n, _, hn⟩ := List.mem_map.mp hmem
  exact nameID_ne_nil _ _ hn

theorem versions_link (prev : Migration σ ε) (name : GoString)
    (named : name ≠ []) (f : Exec σ ε) :
    (Migration.link prev name named f).versions keccak256 =
      prev.versions keccak256 ++ [nameID keccak256 name] := by
  simp [Migration.versions, Migration.steps]

theorem length_versions (m : Migration σ ε) :
    (m.versions keccak256).length = m.steps.length + 1 := by
  simp [Migration.versions]

/-- `Exec` with the ID of the `j`-th step in the store runs the steps after it. -/
theorem exec_resumes {m : Migration σ ε} (hnodup : (m.versions keccak256).Nodup)
    {c : Context κ σ ε} {j : Nat} (hj : (m.versions keccak256)[j]? =
      some (IDStore.getID c.curr)) :
    m.exec keccak256 c = runSteps keccak256 (m.steps.drop j) c := by
  -- induction from the end of the chain: either the store names its last step, or one before
  induction m with
  | begin appName =>
    have hempty : IDStore.getID c.curr = [] := by
      have hmem := List.mem_of_getElem? hj
      simpa [Migration.versions, Migration.steps] using hmem
    simp [Migration.exec, Migration.steps, runSteps, hempty]
  | link prev name named f ih =>
    rw [versions_link] at hnodup hj
    obtain ⟨hprev, -, hdisjoint⟩ := List.nodup_append.mp hnodup
    rcases Nat.lt_or_ge j (prev.versions keccak256).length with hlt | hge
    · rw [List.getElem?_append_left hlt] at hj
      have hne : IDStore.getID c.curr ≠ nameID keccak256 name :=
        hdisjoint _ (List.mem_of_getElem? hj) _ (List.mem_singleton_self _)
      rw [length_versions] at hlt
      rw [exec_link hne (ih hprev hj), Migration.steps, List.drop_append_of_le_length (by omega)]
    · rw [List.getElem?_append_right hge] at hj
      obtain ⟨hlen, hlast⟩ := List.getElem?_eq_some_iff.mp hj
      rw [List.length_singleton] at hlen
      have hid : IDStore.getID c.curr = nameID keccak256 name := by
        rw [← hlast]; simp
      have hdone : (Migration.link prev name named f).steps.drop j = [] := by
        rw [List.drop_eq_nil_iff, Migration.steps, List.length_append]
        rw [length_versions] at hge
        exact hge
      rw [hdone, Migration.exec, Migration.ID_link, if_pos hid, runSteps]

/-- An ID the chain does not know stops `Exec` before anything runs. -/
theorem exec_unknown {m : Migration σ ε} {c : Context κ σ ε}
    (h : IDStore.getID c.curr ∉ m.versions keccak256) :
    m.exec keccak256 c = (c, some (Migration.unknownVersion (IDStore.getID c.curr))) := by
  induction m with
  | begin appName =>
    rw [Migration.exec, if_pos]
    simpa [Migration.versions, Migration.steps] using h
  | link prev name named f ih =>
    rw [versions_link, List.mem_append, not_or, List.mem_singleton] at h
    rw [Migration.exec, Migration.ID_link, if_neg h.2, ih h.1]

/-! ## Where a call stops -/

/-- The names of the steps that succeeded, in the order in which they did. -/
def applied (log : List (LogLine ε)) : List GoString :=
  log.filterMap fun
    | .applied name => some name
    | .failed _ _ => none

theorem applied_append (l l' : List (LogLine ε)) : applied (l ++ l') = applied l ++ applied l' :=
  List.filterMap_append

theorem applied_names (ss : List (Step σ ε)) :
    applied (ss.map fun s => (.applied s.name : LogLine ε)) = ss.map Step.name := by
  induction ss with
  | nil => rfl
  | cons s ss ih => simp only [applied, List.map_cons, List.filterMap_cons] at ih ⊢; rw [ih]

/-- How a run of `ss` ends after `i` steps: with all of them done, or with the
error of the next one. -/
inductive Ended (ss : List (Step σ ε)) (i : Nat) (log log' : List (LogLine ε))
    (err : Option (ExecError ε)) : Prop
  | done (all : i = ss.length)
      (logged : log' = log ++ (ss.take i).map fun s => .applied s.name) (returned : err = none)
  | stopped {s : Step σ ε} {e : ε} (next : ss[i]? = some s)
      (logged : log' = log ++ ((ss.take i).map fun s => .applied s.name) ++ [.failed s.name e])
      (returned : err = some (.step e))

theorem Ended.cons {s : Step σ ε} {ss : List (Step σ ε)} {i : Nat}
    {log log' : List (LogLine ε)}
    {err : Option (ExecError ε)} (h : Ended ss i (log ++ [.applied s.name]) log' err) :
    Ended (s :: ss) (i + 1) log log' err := by
  cases h with
  | done all logged returned =>
    refine .done (by rw [all, List.length_cons]) ?_ returned
    rw [logged, List.take_succ_cons, List.map_cons, List.append_assoc]
    rfl
  | stopped next logged returned =>
    refine .stopped (by rw [List.getElem?_cons_succ]; exact next) ?_ returned
    rw [logged, List.take_succ_cons, List.map_cons, List.append_assoc log]
    rfl

theorem runSteps_ended (keccak256 : GoString → Bytes 32) (ss : List (Step σ ε))
    (c : Context κ σ ε) :
    ∃ i, (IDStore.getID c.curr :: ss.map fun s => nameID keccak256 s.name)[i]? =
        some (IDStore.getID (runSteps keccak256 ss c).1.curr) ∧
      Ended ss i c.log (runSteps keccak256 ss c).1.log (runSteps keccak256 ss c).2 := by
  induction ss generalizing c with
  | nil => exact ⟨0, rfl, .done rfl (by simp [runSteps]) rfl⟩
  | cons s ss ih =>
    rw [runSteps]
    split
    · exact ⟨0, rfl, .stopped rfl (by simp) rfl⟩
    · next data heq =>
      obtain ⟨i, hid, hend⟩ := ih ⟨IDStore.setID c.curr (nameID keccak256 s.name), data,
        c.log ++ [.applied s.name]⟩
      rw [IDStore.getID_setID] at hid
      exact ⟨i + 1, hid, hend.cons⟩

theorem Ended.applied_eq {ss : List (Step σ ε)} {i : Nat} {log log' : List (LogLine ε)}
    {err : Option (ExecError ε)} (h : Ended ss i log log' err) :
    applied log' = applied log ++ (ss.take i).map Step.name := by
  cases h with
  | done all logged returned => rw [logged, applied_append, applied_names]
  | stopped next logged returned =>
    rw [logged, applied_append, applied_append, applied_names]
    exact List.append_nil _

theorem Ended.all {ss : List (Step σ ε)} {i : Nat} {log log' : List (LogLine ε)}
    (h : Ended ss i log log' none) : i = ss.length := by
  cases h with
  | done all logged returned => exact all
  | stopped next logged returned => cases returned

/-- What the chain knows from the `j`-th step on. -/
theorem drop_versions {m : Migration σ ε} {j : Nat} {id : GoString}
    (h : (m.versions keccak256)[j]? = some id) :
    (m.versions keccak256).drop j = id :: (m.steps.drop j).map fun s =>
      nameID keccak256 s.name := by
  obtain ⟨hlt, hid⟩ := List.getElem?_eq_some_iff.mp h
  rw [List.drop_eq_getElem_cons hlt, hid, List.map_drop]
  rfl

theorem exec_ended {m : Migration σ ε} (hnodup : (m.versions keccak256).Nodup)
    {c : Context κ σ ε} {j : Nat} (hj : (m.versions keccak256)[j]? =
      some (IDStore.getID c.curr)) :
    ∃ i, j ≤ i ∧
      (m.versions keccak256)[i]? = some (IDStore.getID (m.exec keccak256 c).1.curr) ∧
      Ended (m.steps.drop j) (i - j) c.log (m.exec keccak256 c).1.log (m.exec keccak256 c).2 := by
  obtain ⟨n, hid, hend⟩ := runSteps_ended keccak256 (m.steps.drop j) c
  rw [← exec_resumes hnodup hj] at hid hend
  rw [← drop_versions hj, List.getElem?_drop] at hid
  refine ⟨j + n, by omega, hid, ?_⟩
  rw [Nat.add_sub_cancel_left]
  exact hend

/-! ## Repeated calls -/

/-- One call after the other. Before each of them the data may change in any way. -/
def attempts (keccak256 : GoString → Bytes 32) (m : Migration σ ε) :
    List (σ → σ) → Context κ σ ε → Context κ σ ε
  | [], c => c
  | change :: rest, c =>
    attempts keccak256 m rest (m.exec keccak256 ⟨c.curr, change c.data, c.log⟩).1

/-- Whatever failed on the way, the steps between the two stored IDs succeeded
once each and in order. -/
theorem attempts_applied {m : Migration σ ε} (hnodup : (m.versions keccak256).Nodup)
    (changes : List (σ → σ)) {c : Context κ σ ε} {j : Nat}
    (hj : (m.versions keccak256)[j]? = some (IDStore.getID c.curr)) :
    ∃ i, j ≤ i ∧
      (m.versions keccak256)[i]? = some (IDStore.getID (attempts keccak256 m changes c).curr) ∧
      applied (attempts keccak256 m changes c).log =
        applied c.log ++ ((m.steps.drop j).take (i - j)).map Step.name := by
  induction changes generalizing c j with
  | nil => exact ⟨j, le_refl j, hj, by simp [attempts]⟩
  | cons change rest ih =>
    obtain ⟨i, hji, hi, hend⟩ := exec_ended (c := ⟨c.curr, change c.data, c.log⟩) hnodup hj
    obtain ⟨k, hik, hk, hlog⟩ := ih hi
    refine ⟨k, hji.trans hik, hk, ?_⟩
    have hsplit : (m.steps.drop j).take (k - j) =
        (m.steps.drop j).take (i - j) ++ (m.steps.drop i).take (k - i) := by
      rw [← Nat.sub_add_sub_cancel hik hji, Nat.add_comm, List.take_add, List.drop_drop,
        Nat.add_sub_cancel' hji]
    rw [attempts, hlog, hend.applied_eq, hsplit, List.map_append, List.append_assoc]

/-- A call that returned nil left the ID of the last step. -/
theorem exec_completes {m : Migration σ ε} (hnodup : (m.versions keccak256).Nodup)
    {c : Context κ σ ε} {j : Nat} (hj : (m.versions keccak256)[j]? = some (IDStore.getID c.curr))
    (hok : (m.exec keccak256 c).2 = none) :
    applied (m.exec keccak256 c).1.log = applied c.log ++ (m.steps.drop j).map Step.name ∧
      ∀ data, m.exec keccak256 ⟨(m.exec keccak256 c).1.curr, data,
        (m.exec keccak256 c).1.log⟩ =
        (⟨(m.exec keccak256 c).1.curr, data, (m.exec keccak256 c).1.log⟩, none) := by
  obtain ⟨i, hji, hi, hend⟩ := exec_ended hnodup hj
  have happlied := hend.applied_eq
  rw [hok] at hend
  have hall := hend.all
  rw [hall, List.take_length] at happlied
  refine ⟨happlied, ?_⟩
  intro data
  have hdone : m.steps.drop i = [] := by
    rw [List.drop_eq_nil_iff]
    rw [List.length_drop] at hall
    omega
  rw [exec_resumes (c := ⟨(m.exec keccak256 c).1.curr, data, (m.exec keccak256 c).1.log⟩)
    hnodup hi,
    hdone, runSteps]

/-- Migrations resume where they stopped. With the ID of the `j`-th step in the
store, or none for `j = 0`, `Exec` runs the steps after it up to the first error
and leaves the ID of the last that succeeded. With any other ID it runs nothing.
Over any number of calls every step succeeds once, and after a call that returned
nil the next one does nothing. -/
theorem migrations_resume (keccak256 : GoString → Bytes 32) (m : Migration σ ε)
    (distinct : (m.steps.map Step.name).Nodup)
    (inj : Set.InjOn keccak256 { n | n ∈ m.steps.map Step.name }) :
    (∀ (c : Context κ σ ε) (j : Nat),
      (m.versions keccak256)[j]? = some (IDStore.getID c.curr) →
      m.exec keccak256 c = runSteps keccak256 (m.steps.drop j) c ∧
      (∃ i, j ≤ i ∧
        (m.versions keccak256)[i]? = some (IDStore.getID (m.exec keccak256 c).1.curr) ∧
        Ended (m.steps.drop j) (i - j) c.log (m.exec keccak256 c).1.log (m.exec keccak256 c).2) ∧
      ∀ changes : List (σ → σ),
        (∃ i, j ≤ i ∧
          (m.versions keccak256)[i]? = some
            (IDStore.getID (attempts keccak256 m changes c).curr) ∧
          applied (attempts keccak256 m changes c).log =
            applied c.log ++ ((m.steps.drop j).take (i - j)).map Step.name) ∧
        ((m.exec keccak256 (attempts keccak256 m changes c)).2 = none →
          let last := (m.exec keccak256 (attempts keccak256 m changes c)).1
          applied last.log = applied c.log ++ (m.steps.drop j).map Step.name ∧
          ∀ data, m.exec keccak256 ⟨last.curr, data, last.log⟩ =
            (⟨last.curr, data, last.log⟩, none))) ∧
    (∀ c : Context κ σ ε, IDStore.getID c.curr ∉ m.versions keccak256 →
      m.exec keccak256 c = (c, some (Migration.unknownVersion (IDStore.getID c.curr)))) := by
  have hnodup := versions_nodup distinct inj
  refine ⟨?_, fun c h => exec_unknown h⟩
  intro c j hj
  refine ⟨exec_resumes hnodup hj, exec_ended hnodup hj, ?_⟩
  intro changes
  obtain ⟨i, hji, hi, hlog⟩ := attempts_applied hnodup changes hj
  refine ⟨⟨i, hji, hi, hlog⟩, ?_⟩
  intro hok
  obtain ⟨happlied, hnoop⟩ := exec_completes hnodup hi hok
  refine ⟨?_, hnoop⟩
  have hsplit : (m.steps.drop j).take (i - j) ++ m.steps.drop i = m.steps.drop j := by
    have hdrop : m.steps.drop i = (m.steps.drop j).drop (i - j) := by
      rw [List.drop_drop, Nat.add_sub_cancel' hji]
    rw [hdrop, List.take_append_drop]
  rw [happlied, hlog, List.append_assoc, ← List.map_append, hsplit]

end Chains

/-! ## The chain of the test -/

/-- Keccak-256 on the names of the chain below. -/
def keccakOfNames (name : GoString) : Bytes 32 :=
  if name = ascii "01" then
    ⟨[47, 194, 166, 195, 96, 146, 177, 31, 2, 106, 206, 67, 171, 84, 106, 205,
      186, 33, 236, 84, 158, 9, 108, 194, 55, 56, 107, 248, 79, 105, 99, 174], rfl⟩
  else if name = ascii "02" then
    ⟨[200, 16, 212, 167, 71, 26, 44, 159, 159, 220, 98, 162, 113, 90, 28, 127,
      44, 113, 2, 213, 40, 65, 193, 30, 44, 188, 102, 45, 233, 204, 3, 14], rfl⟩
  else
    ⟨[166, 51, 237, 180, 75, 140, 235, 224, 69, 236, 243, 183, 61, 10, 48, 122,
      3, 82, 57, 178, 54, 199, 127, 58, 39, 206, 235, 219, 29, 242, 225, 230], rfl⟩

/-- Three steps over a counter. The last one fails until the counter is 5. -/
def nativeChain : Migration Nat GoString :=
  .link (.link (.link (.begin (ascii "native"))
    (ascii "01") (by decide) fun num => (num + 1, none))
    (ascii "02") (by decide) fun num => (num + 1, none))
    (ascii "03") (by decide) fun num =>
      (num + 1, if num < 5 then some (ascii "test migration error") else none)

theorem migrations_resume_native :
    (nativeChain.steps.map Step.name).Nodup ∧
    Set.InjOn keccakOfNames { n | n ∈ nativeChain.steps.map Step.name } ∧
    nativeChain.exec keccakOfNames (⟨.new fun _ => none, 1, []⟩ :
      Context KvdbIDStore Nat GoString) =
      runSteps keccakOfNames nativeChain.steps ⟨.new fun _ => none, 1, []⟩ ∧
    applied (nativeChain.exec keccakOfNames (attempts keccakOfNames nativeChain [id, fun _ => 5]
      (⟨.new fun _ => none, 1, []⟩ : Context KvdbIDStore Nat GoString))).1.log =
      [ascii "01", ascii "02", ascii "03"] := by
  have distinct : (nativeChain.steps.map Step.name).Nodup := by decide +kernel
  have inj : Set.InjOn keccakOfNames { n | n ∈ nativeChain.steps.map Step.name } := by
    have hall : ∀ a ∈ nativeChain.steps.map Step.name,
      ∀ b ∈ nativeChain.steps.map Step.name,
        keccakOfNames a = keccakOfNames b → a = b := by decide +kernel
    intro a ha b hb h
    exact hall a ha b hb h
  obtain ⟨hresume, -, hrepeat⟩ :=
    (migrations_resume (κ := KvdbIDStore) keccakOfNames nativeChain
    distinct inj).1 ⟨.new fun _ => none, 1, []⟩ 0 rfl
  exact ⟨distinct, inj, hresume, ((hrepeat [id, fun _ => 5]).2 (by decide +kernel)).1⟩

end MiniOpera.Migrations
