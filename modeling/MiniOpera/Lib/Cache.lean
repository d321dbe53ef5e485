/-! A cache that may forget. `keep` decides, for every later insertion, which
keys survive it, so a statement about all caches is a statement about every
size and every order of evictions. A getter in front of a table, access by access.
Core Lean only. -/

namespace MiniOpera.Caching

structure Cache (κ ν : Type) where
  entries : κ → Option ν
  keep : Nat → κ → Bool

/-- A cache that may be switched off. -/
abbrev OptCache (κ ν : Type) := Option (Cache κ ν)

namespace OptCache
variable {κ ν : Type}

def get (c : OptCache κ ν) (k : κ) : Option ν := c.bind (·.entries k)

/-- Forget these keys, whatever the policy says. -/
def evict (c : OptCache κ ν) (gone : κ → Bool) : OptCache κ ν :=
  c.map fun c => { c with entries := fun x => if gone x then none else c.entries x }

theorem get_evict {c : OptCache κ ν} {gone : κ → Bool} {x : κ} {y : ν}
    (h : (c.evict gone).get x = some y) : c.get x = some y := by
  cases c with
  | none => cases h
  | some c =>
    change (if gone x then none else c.entries x) = some y at h
    split at h
    · cases h
    · exact h

variable [DecidableEq κ]

/-- Insert, then evict. -/
def add (c : OptCache κ ν) (k : κ) (v : ν) : OptCache κ ν :=
  c.map fun c =>
    { entries := fun x => if c.keep 0 x then (if x = k then some v else c.entries x) else none
      keep := fun t => c.keep (t + 1) }

def remove (c : OptCache κ ν) (k : κ) : OptCache κ ν :=
  c.map fun c => { c with entries := fun x => if x = k then none else c.entries x }

theorem get_add {c : OptCache κ ν} {k x : κ} {v y : ν} (h : (c.add k v).get x = some y) :
    (x = k ∧ y = v) ∨ (x ≠ k ∧ c.get x = some y) := by
  cases c with
  | none => cases h
  | some c =>
    change (if c.keep 0 x then (if x = k then some v else c.entries x) else none) = some y at h
    split at h
    · split at h
      · next hx => exact .inl ⟨hx, (Option.some.inj h).symm⟩
      · next hx => exact .inr ⟨hx, h⟩
    · cases h

theorem get_remove {c : OptCache κ ν} {k x : κ} {y : ν} (h : (c.remove k).get x = some y) :
    x ≠ k ∧ c.get x = some y := by
  cases c with
  | none => cases h
  | some c =>
    change (if x = k then none else c.entries x) = some y at h
    split at h
    · cases h
    · next hx => exact ⟨hx, h⟩

end OptCache

/-! ## Agreement with what is cached -/

/-- Every cached value is one the relation allows for its key. -/
def Agrees {κ ν : Type} (R : κ → ν → Prop) (c : OptCache κ ν) : Prop :=
  ∀ k v, c.get k = some v → R k v

namespace Agrees
variable {κ ν : Type} {R S : κ → ν → Prop} {c : OptCache κ ν}

theorem mono (h : Agrees R c) (hRS : ∀ k v, R k v → S k v) : Agrees S c :=
  fun k v hc => hRS k v (h k v hc)

theorem evict (h : Agrees R c) (gone : κ → Bool) : Agrees R (c.evict gone) :=
  fun k v hc => h k v (OptCache.get_evict hc)

variable [DecidableEq κ]

/-- The value of `k` may change its meaning with the insertion; that of the
other keys may not. -/
theorem add (h : Agrees R c) {k : κ} {v : ν} (hk : S k v)
    (hRS : ∀ x y, x ≠ k → R x y → S x y) :
    Agrees S (c.add k v) := by
  intro x y hx
  rcases OptCache.get_add hx with ⟨rfl, rfl⟩ | ⟨hne, hc⟩
  · exact hk
  · exact hRS x y hne (h x y hc)

theorem remove (h : Agrees R c) {k : κ} (hRS : ∀ x y, x ≠ k → R x y → S x y) :
    Agrees S (c.remove k) := by
  intro x y hx
  obtain ⟨hne, hc⟩ := OptCache.get_remove hx
  exact hRS x y hne (h x y hc)

end Agrees

/-! ## A getter, access by access -/

/-- A getter in front of a table. It looks into the cache. If nothing is there, it reads the
row and puts what it found into the cache before it returns. -/
inductive Getter (ν : Type)
  | looking
  | missed
  | fetched (v : ν)
  deriving DecidableEq

namespace Getter
variable {ν : Type} {R : ν → Prop} {g : Getter ν} {cached row : Option ν}

/-- The next access: the getter goes on, or returns what it found. -/
def step (cached row : Option ν) : Getter ν → Getter ν ⊕ Option ν
  | .looking =>
    match cached with
    | some v => .inr (some v)
    | none => .inl .missed
  | .missed =>
    match row with
    | some v => .inl (.fetched v)
    | none => .inr none
  | .fetched v => .inr (some v)

/-- Of the accesses, only the last one changes the cache. -/
def fill {σ : Type} (put : ν → σ → σ) (s : σ) : Getter ν → σ
  | .fetched v => put v s
  | _ => s

/-- What the getter holds is allowed. -/
def Ok (R : ν → Prop) : Getter ν → Prop
  | .fetched v => R v
  | _ => True

theorem Ok.mono {S : ν → Prop} (h : g.Ok R) (hRS : ∀ v, R v → S v) : g.Ok S := by
  cases g with
  | looking | missed => trivial
  | fetched v => exact hRS v h

theorem fill_keeps {σ : Type} {I : σ → Prop} {put : ν → σ → σ} {s : σ}
    (hs : I s) (hg : g.Ok R)
    (hput : ∀ v, R v → I (put v s)) : I (g.fill put s) := by
  cases g with
  | looking | missed => exact hs
  | fetched v => exact hput v hg

/-- If what is cached, what is stored and what the getter holds is allowed, then so is what
it holds next or returns. It returns nothing only if there is no row. -/
theorem step_ok (hg : g.Ok R) (hcached : ∀ v, cached = some v → R v)
    (hrow : ∀ v, row = some v → R v) :
    (∃ g', g.step cached row = .inl g' ∧ g'.Ok R) ∨
      (∃ v, g.step cached row = .inr (some v) ∧ R v) ∨
      g.step cached row = .inr none ∧ row = none := by
  cases g with
  | looking =>
    cases cached with
    | none => exact .inl ⟨.missed, rfl, trivial⟩
    | some v => exact .inr (.inl ⟨v, rfl, hcached v rfl⟩)
  | missed =>
    cases row with
    | none => exact .inr (.inr ⟨rfl, rfl⟩)
    | some v => exact .inl ⟨.fetched v, rfl, hrow v rfl⟩
  | fetched v => exact .inr (.inl ⟨v, rfl, hg⟩)

end Getter

end MiniOpera.Caching
