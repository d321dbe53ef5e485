import Mathlib.Data.Nat.Digits.Defs
import MiniOpera.Service

/-!
# Genesis and start

`applyGenesis` on an empty store, and the state of the service after `NewService`
and `Start`: the keys of the first epoch published and its database loaded.
-/

namespace MiniOpera.Genesis
open GoRuntime InterEvent EventCheck EventCodec GossipStore Caching Consensus Service

/-- `big.Int.Bytes`: big-endian, no leading zero. -/
def stakeBytes (stake : Nat) : List UInt8 := (Nat.digits 256 stake).reverse.map UInt8.ofNat

/-- What one validator adds to the digest. -/
def validatorBytes (v : Validator) : List UInt8 :=
  idxBytes v.id ++ v.pubKey ++ [UInt8.ofNat (stakeBytes v.stake).length] ++ stakeBytes v.stake

/-- `Validators.Hash`. -/
def validatorsHash (sha256 : List UInt8 → Hash) (vv : List Validator) : Hash :=
  sha256 (vv.flatMap validatorBytes)

/-- `abft.FirstEpoch`. -/
def firstEpoch : Nat := 1

/-- The event whose ID names the genesis. -/
def genesisEvent (w : World) : MutableEvent :=
  (((MutableEvent.zero.setEpoch 0).setLamport (UInt32.ofNat w.net.maxEpochBlocks)).setPayload
    (w.net.extraData ++ (validatorsHash w.sha256 w.net.validators).data)).setRawTime
      w.net.genesisTime

def applyGenesis {ε : Type} (w : World) (s : Store) : Go ε (EventID × Store) := do
  let genesis ← (genesisEvent w).build w.sha256
  let s := s.setBlock 0 ⟨w.net.genesisTime, genesis.id, [genesis.id]⟩
  let s := s.setEpochState ⟨firstEpoch, w.net.validators⟩
  return (genesis.id, s.setBlockState ⟨0, 0⟩)

/-- Which caches are on, and what each insertion into them evicts. -/
structure CacheConfig where
  events : Option (Nat → EventID → Bool)
  blocks : Option (Nat → Nat → Bool)
  packInfos : Option (Nat → Nat × Nat → Bool)

def newCache {κ ν : Type} (keep : Option (Nat → κ → Bool)) : OptCache κ ν :=
  keep.map fun keep => ⟨fun _ => none, keep⟩

def newStore (cfg : CacheConfig) : Store :=
  ⟨.empty, ⟨newCache cfg.events, newCache cfg.blocks, newCache cfg.packInfos, none, none⟩⟩

/-- `ApplyGenesis` on a new store, `NewService` and `Start`. -/
def start (w : World) (cfg : CacheConfig) (em : Emitter) : Go ServiceError Node := do
  let (_, store) ← applyGenesis w (newStore cfg)
  let (epoch, store) ← store.getEpoch
  let pubKeys := newEpochPubKeys epoch w.net.validators
  let (epoch, store) ← store.getEpoch
  return ⟨store.loadEpochStore epoch, pubKeys, some em, false⟩

theorem agrees_newCache {κ ν : Type} (R : κ → ν → Prop)
    (keep : Option (Nat → κ → Bool)) :
    Agrees R (newCache keep) := by
  intro k v h
  cases keep <;> cases h

theorem newStore_coherent (cfg : CacheConfig) : Coherent (newStore cfg) :=
  ⟨agrees_newCache _ _, agrees_newCache _ _, nofun, nofun⟩

/-- The service starts, in the first epoch, with nothing connected. -/
theorem start_spec (w : World) (cfg : CacheConfig) (em : Emitter) :
    ∃ n b, start w cfg em = .ok n ∧
      n.store.data = { Data.empty with
        blocks := Function.update (fun _ => none) 0 (some b)
        blockState := some ⟨0, 0⟩
        epochState := some ⟨firstEpoch, w.net.validators⟩
        epochStore := some firstEpoch } ∧
      Coherent n.store ∧ (∀ R, Agrees R n.store.cache.events) ∧
      n.pubKeys = newEpochPubKeys firstEpoch w.net.validators ∧
      n.stopped = false ∧ n.emitter = some em := by
  have hbuild := build_uncached (ε := ServiceError) w.sha256 (genesisEvent w) rfl rfl
    (show (0 : UInt8).toNat < 16 by decide)
  simp only [start, applyGenesis, hbuild, ok_bind, pure_eq_ok, Store.getEpoch, Store.getEpochState,
    Store.setBlockState, Store.setEpochState, Store.loadEpochStore]
  refine ⟨_, ⟨_, _, _⟩, rfl, rfl, ?_, fun R => agrees_newCache R _, rfl, rfl, rfl⟩
  have hset := fun b =>
    (((newStore_coherent cfg).setBlock 0 b).setEpochState
      ⟨firstEpoch, w.net.validators⟩).setBlockState ⟨0, 0⟩
  exact ⟨(hset _).blocks, (hset _).packInfos, (hset _).blockState, (hset _).epochState⟩

/-- `ApplyGenesis` writes both states through their caches. -/
theorem start_cached {w : World} {cfg : CacheConfig} {em : Emitter} {n : Node}
    (h : start w cfg em = .ok n) : n.store.cache.blockState = n.store.data.blockState ∧
      n.store.cache.epochState = n.store.data.epochState := by
  have hbuild := build_uncached (ε := ServiceError) w.sha256 (genesisEvent w) rfl rfl
    (show (0 : UInt8).toNat < 16 by decide)
  simp only [start, applyGenesis, hbuild, ok_bind, pure_eq_ok, Store.getEpoch, Store.getEpochState,
    Store.setBlockState, Store.setEpochState, Store.loadEpochStore] at h
  cases h
  exact ⟨rfl, rfl⟩

end MiniOpera.Genesis
