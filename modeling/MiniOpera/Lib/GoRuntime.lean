/-! The part of Go's run time the development relies on: panics as values,
fixed-size byte arrays, and slices that keep the bytes between their length
and their capacity. Slicing is bounded by the capacity, indexing by the
length, exactly as in the language. Core Lean only. -/

namespace MiniOpera.GoRuntime

inductive Panic
  | indexOutOfRange
  | sliceBounds
  | nilDereference
  | message (text : String)
  deriving DecidableEq, Repr

/-- Why a computation stopped: it panicked, or it returned an error. -/
inductive Fault (ε : Type)
  | panic (p : Panic)
  | error (e : ε)
  deriving DecidableEq, Repr

abbrev Go (ε α : Type) := Except (Fault ε) α

theorem toOption_eq_some {ε α : Type} {x : Go ε α} {a : α} (h : x.toOption = some a) :
    x = .ok a := by
  cases x with
  | error _ => cases h
  | ok b => cases h; rfl

/-- The fault of a computation that did not return. -/
def fault? {ε α : Type} : Go ε α → Option (Fault ε)
  | .error f => some f
  | .ok _ => none

theorem fault?_eq_some {ε α : Type} {x : Go ε α} {f : Fault ε} (h : fault? x = some f) :
    x = .error f := by
  cases x with
  | error g => cases h; rfl
  | ok _ => cases h

/-- Peel one bind off a computation that returned. -/
theorem bind_eq_ok {ε α β : Type} {x : Go ε α} {f : α → Go ε β} {b : β}
    (h : x >>= f = .ok b) : ∃ a, x = .ok a ∧ f a = .ok b := by
  cases x with
  | error e => cases h
  | ok a => exact ⟨a, rfl, h⟩

@[simp] theorem ok_bind {ε α β : Type} (a : α) (f : α → Go ε β) :
    (Except.ok a >>= f : Go ε β) = f a := rfl

@[simp] theorem error_bind {ε α β : Type} (e : Fault ε) (f : α → Go ε β) :
    (Except.error e >>= f : Go ε β) = .error e := rfl

@[simp] theorem pure_eq_ok {ε α : Type} (a : α) : (pure a : Go ε α) = .ok a := rfl

/-! ## Byte arrays of a fixed size -/

/-- The Go array type `[n]byte`. -/
structure Bytes (n : Nat) where
  data : List UInt8
  size : data.length = n
  deriving DecidableEq

theorem Bytes.ext_data {n : Nat} {a b : Bytes n} (h : a.data = b.data) : a = b := by
  cases a; cases b; cases h; rfl

def Bytes.zero (n : Nat) : Bytes n := ⟨List.replicate n 0, List.length_replicate⟩

instance (n : Nat) : Inhabited (Bytes n) := ⟨Bytes.zero n⟩

/-! ## Slices -/

/-- A slice: its elements, and those between its length and its capacity. -/
structure Slice (α : Type) where
  data : List α
  spare : List α
  deriving DecidableEq

namespace Slice

variable {α ε : Type}

def len (s : Slice α) : Nat := s.data.length

def backing (s : Slice α) : List α := s.data ++ s.spare

/-- `s[lo:hi]`. The upper bound may exceed the length, not the capacity. -/
def sub (s : Slice α) (lo hi : Nat) : Go ε (Slice α) :=
  if lo ≤ hi ∧ hi ≤ s.backing.length then
    .ok ⟨(s.backing.drop lo).take (hi - lo), s.backing.drop hi⟩
  else .error (.panic .sliceBounds)

/-- `s[lo:]`, whose implicit upper bound is the length. -/
def tailFrom (s : Slice α) (lo : Nat) : Go ε (Slice α) :=
  if lo ≤ s.len then .ok ⟨s.data.drop lo, s.spare⟩ else .error (.panic .sliceBounds)

theorem sub_ok {s t : Slice α} {lo hi : Nat} (h : (s.sub lo hi : Go ε _) = .ok t) :
    lo ≤ hi ∧ hi ≤ s.backing.length ∧ t.data = (s.backing.drop lo).take (hi - lo) := by
  unfold sub at h
  split at h
  · next hb => cases h; exact ⟨hb.1, hb.2, rfl⟩
  · cases h

theorem tailFrom_ok {s t : Slice α} {lo : Nat} (h : (s.tailFrom lo : Go ε _) = .ok t) :
    lo ≤ s.len ∧ t = ⟨s.data.drop lo, s.spare⟩ := by
  unfold tailFrom at h
  split at h
  · next hb => cases h; exact ⟨hb, rfl⟩
  · cases h

end Slice

end MiniOpera.GoRuntime
