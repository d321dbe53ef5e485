import MiniOpera.Genesis
import MiniOpera.Lib.RecordStream

/-!
# The digest of the genesis validators

`ApplyGenesis` on a store that has a genesis compares its ID with the one of the
configuration. The ID covers the validators through `Validators.Hash`, whose bytes
hold public keys without their length, and stakes behind one byte for theirs.

`genesis_digest_iff`: on the validators with public keys of the lengths `Λ` and
stakes of at most `N` bytes, the bytes determine the list exactly when `Λ` has one
length and `N` fits a byte; other validators then get a `GenesisMismatchError`.
-/

namespace MiniOpera.GenesisDigest
open GoRuntime LittleEndian InterEvent EventWire EventCodec EventCheck GossipStore Consensus Genesis
  RecordStream

/-! ## `apply_genesis.go` -/

structure GenesisMismatchError where
  stored : EventID
  new : EventID
  deriving DecidableEq

structure Applied where
  genesisAtropos : EventID
  genesisState : EventID
  new : Bool
  deriving DecidableEq

/-- The genesis applied to a store in memory. -/
def calcGenesisHash {ε : Type} (w : World) : Go ε EventID := do
  let (h, _) ← Genesis.applyGenesis w (newStore ⟨none, none, none⟩)
  return h

/-- `ApplyGenesis`. -/
def applyGenesis (w : World) (s : Store) : Go GenesisMismatchError (Applied × Store) :=
  match s.getBlock 0 with
  | (some storedGenesis, s) => do
    let newHash ← calcGenesisHash w
    if storedGenesis.atropos ≠ newHash then .error (.error ⟨storedGenesis.atropos, newHash⟩)
    else .ok (⟨storedGenesis.atropos, storedGenesis.atropos, false⟩, s)
  -- it is the first time genesis is applied
  | (none, s) => do
    let (genesisAtropos, s) ← Genesis.applyGenesis w s
    return (⟨genesisAtropos, genesisAtropos, true⟩, s)

/-! ## The ID of a genesis -/

/-- What `Validators.Hash` gives to the hasher. -/
def digestBytes (vv : List Validator) : List UInt8 := vv.flatMap validatorBytes

/-- What is hashed for the ID of the genesis event. -/
def signedPart (w : World) : List UInt8 :=
  let b := wire (genesisEvent w).immutable
  b.take (b.length - sigSize)

def genesisID (w : World) : EventID :=
  ((genesisEvent w).setID (calcEventID (w.sha256 (signedPart w)))).id

/-- The two inputs of the hash. -/
def hashed (w : World) : Set (List UInt8) := {digestBytes w.net.validators, signedPart w}

theorem genesis_build {ε : Type} (w : World) :
    ∃ e : Event, ((genesisEvent w).build w.sha256 : Go ε _) = .ok e ∧ e.id = genesisID w :=
  ⟨_, build_uncached w.sha256 (genesisEvent w) rfl rfl
    (show (0 : UInt8).toNat < 16 by decide), rfl⟩

theorem calcGenesisHash_eq {ε : Type} (w : World) :
    (calcGenesisHash w : Go ε _) = .ok (genesisID w) := by
  obtain ⟨e, he, hid⟩ := genesis_build (ε := ε) w
  simp only [calcGenesisHash, Genesis.applyGenesis, he, ok_bind, pure_eq_ok, hid]

theorem setID_injective {a b : MutableEvent} {r r' : Bytes 24}
    (h : (a.setID r).id = (b.setID r').id) : r = r' := by
  have hdata : ∀ (e : MutableEvent) (r : Bytes 24),
      (e.setID r).id.data = idxBytes e.epoch ++ idxBytes e.lamport ++ r.data := by
    intro e r
    exact List.take_left' (by simp [r.size])
  have hbytes := congrArg Bytes.data h
  rw [hdata, hdata] at hbytes
  exact Bytes.ext_data (List.append_inj' hbytes (by rw [r.size, r'.size])).2

theorem wire_eq_signed (e : Event) :
    wire e = (wire e).take ((wire e).length - sigSize) ++ e.sig.data := by
  rw [wire_unsigned]
  simp only [wire, body, List.append_assoc]

/-- The genesis event can be read back from its bytes. -/
theorem payload_of_signedPart {w w' : World} (h : signedPart w = signedPart w') :
    (genesisEvent w).payload = (genesisEvent w').payload := by
  have hwire : wire (genesisEvent w).immutable = wire (genesisEvent w').immutable := by
    rw [wire_eq_signed (genesisEvent w).immutable, wire_eq_signed (genesisEvent w').immutable]
    exact congrArg (· ++ (Bytes.zero sigSize).data) h
  have hread : ∀ v : World, ∃ m, MutableEvent.zero.unmarshalBinary w.sha256
      ⟨wire (genesisEvent v).immutable, []⟩ = (m, none) ∧
        m.payload = (genesisEvent v).payload := by
    intro v
    refine ⟨_, unmarshalBinary_wire w.sha256 (genesisEvent v).immutable rfl [] .zero, ?_⟩
    have hnone : ParentsOfEpoch (genesisEvent v).epoch (genesisEvent v).parents := by
      intro p hp
      cases hp
    exact congrArg (·.payload) (received_partsOf w.sha256 (genesisEvent v).immutable rfl
      (show 0 < 2 ^ 32 by decide) hnone _)
  obtain ⟨m, hm, hpayload⟩ := hread w
  obtain ⟨m', hm', hpayload'⟩ := hread w'
  rw [hwire, hm'] at hm
  cases hm
  rw [← hpayload, hpayload']

/-- With a hash free of collisions, the ID covers the bytes of the validators. -/
theorem digestBytes_of_genesisID (w w' : World) (hsha : w'.sha256 = w.sha256)
    (hfree : Set.InjOn (fun x => calcEventID (w.sha256 x)) (hashed w ∪ hashed w'))
    (h : genesisID w = genesisID w') :
    digestBytes w.net.validators = digestBytes w'.net.validators := by
  have hid := setID_injective h
  rw [hsha] at hid
  have hsigned : signedPart w = signedPart w' :=
    hfree (.inl (.inr rfl)) (.inr (.inr rfl)) hid
  have hpayload : w.net.extraData ++ (validatorsHash w.sha256 w.net.validators).data =
      w'.net.extraData ++ (validatorsHash w'.sha256 w'.net.validators).data :=
    payload_of_signedPart hsigned
  have hhash : validatorsHash w.sha256 w.net.validators =
      validatorsHash w.sha256 w'.net.validators := by
    rw [hsha] at hpayload
    refine Bytes.ext_data (List.append_inj' hpayload ?_).2
    rw [Bytes.size, Bytes.size]
  exact hfree (.inl (.inl rfl)) (.inr (.inl rfl)) (congrArg calcEventID hhash)

/-- The store has the genesis of a configuration. -/
def StoredGenesis (w : World) (s : Store) : Prop :=
  ∃ b, s.data.blocks 0 = some b ∧ b.atropos = genesisID w

theorem applyGenesis_stored {w w' : World} {s : Store} (hc : Coherent s) (h : StoredGenesis w s) :
    (genesisID w ≠ genesisID w' →
      applyGenesis w' s = .error (.error ⟨genesisID w, genesisID w'⟩)) ∧
    (genesisID w = genesisID w' →
      applyGenesis w' s = .ok (⟨genesisID w, genesisID w, false⟩, (s.getBlock 0).2)) := by
  obtain ⟨b, hb, hatropos⟩ := h
  obtain ⟨hread, -⟩ := getBlock_spec hc 0
  obtain ⟨s', hget⟩ : ∃ s', s.getBlock 0 = (some b, s') := by
    rw [hb] at hread
    exact ⟨_, Prod.ext hread rfl⟩
  have hcalc := calcGenesisHash_eq (ε := GenesisMismatchError) w'
  constructor
  · intro hne
    rw [applyGenesis, hget]
    simp only [hcalc, ok_bind, hatropos, ne_eq, hne, not_false_eq_true, if_true]
  · intro heq
    rw [applyGenesis, hget]
    simp only [hcalc, ok_bind, hatropos, heq, ne_eq, not_true_eq_false, if_false]

/-- The first `ApplyGenesis` stores the genesis. -/
theorem applyGenesis_first (w : World) {s : Store} (hc : Coherent s) (h : s.data.blocks 0 = none) :
    ∃ s', applyGenesis w s = .ok (⟨genesisID w, genesisID w, true⟩, s') ∧ Coherent s' ∧
      StoredGenesis w s' := by
  obtain ⟨hread, -, -, hc'⟩ := getBlock_spec hc 0
  obtain ⟨s₀, hget⟩ : ∃ s₀, s.getBlock 0 = (none, s₀) := by
    rw [h] at hread
    exact ⟨_, Prod.ext hread rfl⟩
  rw [hget] at hc'
  obtain ⟨e, he, hid⟩ := genesis_build (ε := GenesisMismatchError) w
  rw [applyGenesis, hget]
  simp only [Genesis.applyGenesis, he, ok_bind, pure_eq_ok, hid]
  refine ⟨_, rfl, ((hc'.setBlock 0 _).setEpochState _).setBlockState _,
    ⟨⟨w.net.genesisTime, genesisID w, [genesisID w]⟩, ?_, rfl⟩⟩
  simp [Store.setBlockState, Store.setEpochState, Store.setBlock]

/-! ## The bytes of a validator -/

/-- The number `big.Int.SetBytes` reads. -/
def stakeOf (bs : List UInt8) : Nat := Nat.ofDigits 256 (bs.reverse.map UInt8.toNat)

theorem stakeOf_stakeBytes (stake : Nat) : stakeOf (stakeBytes stake) = stake := by
  have hdigits : (Nat.digits 256 stake).map (UInt8.toNat ∘ UInt8.ofNat) =
      Nat.digits 256 stake := by
    conv_rhs => rw [← List.map_id (Nat.digits 256 stake)]
    apply List.map_congr_left
    intro d hd
    have hlt : d < 256 := Nat.digits_lt_base (by decide) hd
    simp only [Function.comp, UInt8.toNat_ofNat', id_eq]
    omega
  rw [stakeOf, stakeBytes, ← List.map_reverse, List.reverse_reverse, List.map_map, hdigits,
    Nat.ofDigits_digits]

theorem stakeBytes_stakeOf {bs : List UInt8} (h : bs.head? ≠ some 0) :
    stakeBytes (stakeOf bs) = bs := by
  have hdigits : Nat.digits 256 (stakeOf bs) = bs.reverse.map UInt8.toNat := by
    refine Nat.digits_ofDigits 256 (by decide) _ ?_ ?_
    · intro d hd
      obtain ⟨b, -, rfl⟩ := List.mem_map.mp hd
      exact b.toNat_lt
    · intro hne hlast
      cases bs with
      | nil => exact hne rfl
      | cons b bs =>
        have hzero : b = 0 := by simpa [← UInt8.toNat_inj] using hlast
        exact h (by rw [hzero]; rfl)
  rw [stakeBytes, hdigits, ← List.map_reverse, List.reverse_reverse, List.map_map]
  conv_rhs => rw [← List.map_id bs]
  apply List.map_congr_left
  intro b _
  simp

theorem exists_idxBytes (bs : List UInt8) (h : bs.length = 4) : ∃ id, idxBytes id = bs := by
  have hlt := leNat_lt bs.reverse
  rw [List.length_reverse, h] at hlt
  have hid : (UInt32.ofNat (leNat bs.reverse)).toNat = leNat bs.reverse := by
    rw [UInt32.toNat_ofNat']
    exact Nat.mod_eq_of_lt hlt
  refine ⟨UInt32.ofNat (leNat bs.reverse), ?_⟩
  have hback := leBytes_leNat bs.reverse
  rw [List.length_reverse, h] at hback
  rw [idxBytes, hid, hback, List.reverse_reverse]

/-- The validators with public keys of the lengths `Λ` and stakes of at most `N` bytes. -/
def Within (Λ : Set Nat) (N : Nat) : Set Validator :=
  {v | v.pubKey.length ∈ Λ ∧ (stakeBytes v.stake).length ≤ N}

def ListsWithin (Λ : Set Nat) (N : Nat) : Set (List Validator) :=
  {vv | ∀ v ∈ vv, v ∈ Within Λ N}

/-- A validator whose ID and public key are given as bytes. -/
theorem exists_validator {Λ : Set Nat} {k : Nat} (hk : k ∈ Λ) (N : Nat)
    (front stake : List UInt8)
    (hfront : front.length = 4 + k) (hlen : stake.length ≤ N) (hstake : stake.head? ≠ some 0) :
    ∃ v ∈ Within Λ N, stakeBytes v.stake = stake ∧
      validatorBytes v = front ++ UInt8.ofNat stake.length :: stake := by
  obtain ⟨id, hid⟩ := exists_idxBytes (front.take 4) (by rw [List.length_take]; omega)
  have hkey : (front.drop 4).length = k := by
    rw [List.length_drop]
    omega
  refine ⟨⟨id, front.drop 4, stakeOf stake⟩, ⟨?_, ?_⟩, stakeBytes_stakeOf hstake, ?_⟩
  · rwa [hkey]
  · rwa [stakeBytes_stakeOf hstake]
  · rw [validatorBytes, stakeBytes_stakeOf hstake, hid, List.take_append_drop, List.append_assoc]
    rfl

theorem stake_cuts {Λ : Set Nat} {N : Nat} (hN : N ≤ 255) : Cuts (Within Λ N) fun v =>
    UInt8.ofNat (stakeBytes v.stake).length :: stakeBytes v.stake := by
  refine Cuts.sized (f := fun v : Validator => stakeBytes v.stake) ?_
  rintro n ⟨v, hv, rfl⟩ m ⟨u, hu, rfl⟩ hmark
  have hv' := hv.2
  have hu' := hu.2
  have hnat := congrArg UInt8.toNat hmark
  rw [UInt8.toNat_ofNat', UInt8.toNat_ofNat'] at hnat
  omega

theorem front_cuts {Λ : Set Nat} (hΛ : Λ.Subsingleton) (N : Nat) :
    Cuts (Within Λ N) fun v => idxBytes v.id ++ v.pubKey := by
  have hid : Cuts (Within Λ N) fun v => idxBytes v.id :=
    .of_length fun v _ u _ => by rw [idxBytes_length, idxBytes_length]
  exact hid.append (.of_length fun v hv u hu => hΛ hv.1 hu.1)

theorem validatorBytes_eq (v : Validator) : validatorBytes v =
    (idxBytes v.id ++ v.pubKey) ++
      (UInt8.ofNat (stakeBytes v.stake).length :: stakeBytes v.stake) := by
  rw [validatorBytes, List.append_assoc (idxBytes v.id ++ v.pubKey)]
  rfl

/-- Keys of one length and stakes whose length fits a byte: the bytes determine the
validators. -/
theorem digestBytes_injOn {Λ : Set Nat} {N : Nat} (hΛ : Λ.Subsingleton) (hN : N ≤ 255) :
    Set.InjOn digestBytes (ListsWithin Λ N) := by
  have hcuts : Cuts (Within Λ N) validatorBytes := by
    rw [funext validatorBytes_eq]
    exact (front_cuts hΛ N).append (stake_cuts hN)
  refine hcuts.flatMap_injOn ?_ ?_
  · intro v hv u hu heq
    rw [validatorBytes_eq, validatorBytes_eq] at heq
    obtain ⟨hfront, hstake⟩ := front_cuts hΛ N v hv u hu _ _ heq
    obtain ⟨hid, hkey⟩ := List.append_inj hfront (by rw [idxBytes_length, idxBytes_length])
    have hnum := congrArg stakeOf (List.cons.inj hstake).2
    rw [stakeOf_stakeBytes, stakeOf_stakeBytes] at hnum
    cases v
    cases u
    rw [Validator.mk.injEq]
    exact ⟨idxBytes_injective hid, hkey, hnum⟩
  · intro v _
    rw [validatorBytes_eq]
    simp

/-! ## Collisions -/

theorem stakeBytes_zero : stakeBytes 0 = [] := rfl

/-- A validator of zeros. -/
def zeroValidator (keyLength : Nat) : Validator := ⟨0, List.replicate keyLength 0, 0⟩

theorem digestBytes_zeros (n keyLength : Nat) :
    digestBytes (List.replicate n (zeroValidator keyLength)) =
      List.replicate (n * (5 + keyLength)) 0 := by
  have hone : validatorBytes (zeroValidator keyLength) = List.replicate (5 + keyLength) 0 := by
    have hid : idxBytes 0 = List.replicate 4 0 := by decide
    have hlen : [UInt8.ofNat ([] : List UInt8).length] = List.replicate 1 0 := rfl
    simp only [validatorBytes, zeroValidator, hid, hlen, stakeBytes_zero, List.append_nil,
      List.replicate_append_replicate]
    congr 1
    omega
  induction n with
  | zero => simp [digestBytes]
  | succ n ih =>
    rw [digestBytes] at ih ⊢
    rw [List.replicate_succ, List.flatMap_cons, hone, ih, List.replicate_append_replicate,
      Nat.succ_mul, Nat.add_comm]

/-- Keys of two lengths: as many zeros from one as from the other. -/
theorem keys_collide {Λ : Set Nat} (N : Nat) {a b : Nat} (ha : a ∈ Λ)
    (hb : b ∈ Λ) (hne : a ≠ b) :
    ¬Set.InjOn digestBytes (ListsWithin Λ N) := by
  intro hinj
  have hmem : ∀ n, ∀ c ∈ Λ, List.replicate n (zeroValidator c) ∈ ListsWithin Λ N := by
    intro n c hc v hv
    rw [List.eq_of_mem_replicate hv]
    exact ⟨by rwa [zeroValidator, List.length_replicate], Nat.zero_le N⟩
  have heq := hinj (hmem (5 + b) a ha) (hmem (5 + a) b hb)
    (by rw [digestBytes_zeros, digestBytes_zeros, Nat.mul_comm])
  have hlen := congrArg List.length heq
  rw [List.length_replicate, List.length_replicate] at hlen
  omega

/-- A stake of 256 bytes, then the ID and the key of a validator without stake. -/
def overlapHead (k : Nat) : List UInt8 :=
  List.replicate (4 + k) 1 ++ 254 :: (List.replicate 254 1 ++ [1])

/-- The ID and the key of another one. -/
def overlapTail (k : Nat) : List UInt8 := 1 :: 1 :: (List.replicate k 1 ++ [2, 1])

theorem overlapHead_length (k : Nat) : (overlapHead k).length = 256 + (4 + k) := by
  simp only [overlapHead, List.length_append, List.length_replicate, List.length_cons,
    List.length_nil]
  omega

theorem overlapTail_length (k : Nat) : (overlapTail k).length = 4 + k := by
  simp only [overlapTail, List.length_append, List.length_replicate, List.length_cons,
    List.length_nil]
  omega

theorem overlapHead_head (k : Nat) : ((overlapHead k).take 256).head? ≠ some 0 := by
  rw [overlapHead, Nat.add_comm 4 k, List.replicate_succ, List.cons_append, List.take_succ_cons,
    List.head?_cons]
  decide

/-- The same bytes are two validators with stakes of 254 and 2 bytes. -/
theorem overlap_eq (k : Nat) :
    overlapHead k ++ 0 :: (overlapTail k ++ [0]) =
      List.replicate (4 + k) 1 ++ 254 :: (List.replicate 254 1 ++
        1 :: 0 :: 1 :: 1 :: (List.replicate k 1 ++ [2, 1, 0])) := by
  simp only [overlapHead, overlapTail, List.append_assoc, List.cons_append, List.nil_append]

/-- A stake of 256 bytes: its length is written as zero, and its bytes can be read as
those of the validators that follow one without stake. -/
theorem stakes_collide {Λ : Set Nat} {N k : Nat} (hk : k ∈ Λ) (hN : 256 ≤ N) :
    ¬Set.InjOn digestBytes (ListsWithin Λ N) := by
  intro hinj
  have hhead := overlapHead_length k
  have hslen : ((overlapHead k).take 256).length = 256 := by
    rw [List.length_take]
    omega
  have hnil : ([] : List UInt8).head? ≠ some 0 := by decide
  have hones : (List.replicate (4 + k) (1 : UInt8)).length = 4 + k := List.length_replicate
  obtain ⟨v, hv, hvstake, hvbytes⟩ := exists_validator hk N _ _ hones (hslen.trans_le hN)
    (overlapHead_head k)
  obtain ⟨w₁, hw₁, -, hw₁bytes⟩ := exists_validator hk N ((overlapHead k).drop 256) []
    (by rw [List.length_drop]; omega) (Nat.zero_le N) hnil
  obtain ⟨w₂, hw₂, -, hw₂bytes⟩ := exists_validator hk N (overlapTail k) []
    (overlapTail_length k)
    (Nat.zero_le N) hnil
  -- the same bytes, with no stake of 256 bytes
  obtain ⟨v', hv', hv'stake, hv'bytes⟩ := exists_validator hk N _ [] hones (Nat.zero_le N) hnil
  obtain ⟨u₁, hu₁, -, hu₁bytes⟩ := exists_validator hk N _ (List.replicate 254 1) hones
    (by rw [List.length_replicate]; omega) (by decide)
  obtain ⟨u₂, hu₂, -, hu₂bytes⟩ := exists_validator hk N
    (1 :: 0 :: 1 :: 1 :: List.replicate k 1) [1, 0]
    (by simp only [List.length_cons, List.length_replicate]; omega)
    (by simp only [List.length_cons, List.length_nil]; omega) (by decide)
  have hmark : UInt8.ofNat (List.replicate 254 (1 : UInt8)).length = 254 := by
    rw [List.length_replicate]
    rfl
  have hmark₂ : UInt8.ofNat [(1 : UInt8), 0].length = 2 := rfl
  have hmark₀ : UInt8.ofNat ([] : List UInt8).length = 0 := rfl
  have hmark' : UInt8.ofNat 256 = 0 := rfl
  have hlists : [v, w₁, w₂] = [v', u₁, u₂] := by
    refine hinj ?_ ?_ ?_
    · change ∀ x ∈ [v, w₁, w₂], x ∈ Within Λ N
      simp [hv, hw₁, hw₂]
    · change ∀ x ∈ [v', u₁, u₂], x ∈ Within Λ N
      simp [hv', hu₁, hu₂]
    · simp only [digestBytes, List.flatMap_cons, List.flatMap_nil, hvbytes, hw₁bytes, hw₂bytes,
        hv'bytes, hu₁bytes, hu₂bytes, hslen, hmark, hmark₂, hmark₀,
          hmark', List.append_assoc,
        List.cons_append, List.nil_append, List.append_nil]
      rw [← overlap_eq, ← List.append_assoc ((overlapHead k).take 256), List.take_append_drop]
  have hstakes := congrArg (fun x : Validator => (stakeBytes x.stake).length)
    (List.cons.inj hlists).1
  rw [hvstake, hv'stake, hslen] at hstakes
  cases hstakes

theorem genesis_digest_iff (Λ : Set Nat) (N : Nat) :
    (Set.InjOn digestBytes (ListsWithin Λ N) ∧
      ∀ (w : World) (net : Net) (s : Store), Coherent s → StoredGenesis w s →
        w.net.validators ∈ ListsWithin Λ N → net.validators ∈ ListsWithin Λ N →
        net.validators ≠ w.net.validators →
        Set.InjOn (fun x => calcEventID (w.sha256 x))
        (hashed w ∪ hashed { w with net := net }) →
        applyGenesis { w with net := net } s =
          .error (.error ⟨genesisID w, genesisID { w with net := net }⟩)) ↔
      Λ = ∅ ∨ (Λ.Subsingleton ∧ N ≤ 255) := by
  constructor
  · rintro ⟨hinj, -⟩
    by_contra hcon
    obtain ⟨hne, hcond⟩ := not_or.mp hcon
    obtain ⟨k, hk⟩ := Set.nonempty_iff_ne_empty.mpr hne
    have hΛ : Λ.Subsingleton := by
      intro a ha b hb
      by_contra hab
      exact keys_collide N ha hb hab hinj
    have hN : 256 ≤ N := by
      by_contra hlt
      exact hcond ⟨hΛ, by omega⟩
    exact stakes_collide hk hN hinj
  · intro hcond
    have hinj : Set.InjOn digestBytes (ListsWithin Λ N) := by
      rcases hcond with rfl | ⟨hΛ, hN⟩
      · -- without a length for the keys there is no validator
        have hnil : ∀ vv ∈ ListsWithin ∅ N, vv = [] := by
          intro vv hvv
          exact List.eq_nil_iff_forall_not_mem.mpr fun v hv => (hvv v hv).1
        intro vv hvv uu huu _
        rw [hnil vv hvv, hnil uu huu]
      · exact digestBytes_injOn hΛ hN
    refine ⟨hinj, ?_⟩
    intro w net s hc hstored hold hnew hne hfree
    refine (applyGenesis_stored hc hstored).1 fun hid => hne ?_
    have hdigest : digestBytes w.net.validators = digestBytes net.validators :=
      digestBytes_of_genesisID w { w with net := net } rfl hfree hid
    exact (hinj hold hnew hdigest).symm

/-- SHA-256 on what is hashed for the two networks below. -/
def sha256OfSmall (bs : List UInt8) : Hash :=
  if bs = [0, 0, 0, 1, 1, 1, 1] then
    ⟨[211, 32, 102, 94, 228, 14, 147, 32, 227, 197, 155, 12, 194, 179, 194, 121,
      220, 180, 69, 153, 56, 40, 58, 97, 64, 180, 41, 115, 180, 230, 102, 100], rfl⟩
  else if bs = [0, 0, 0, 1, 2, 1, 1] then
    ⟨[144, 211, 84, 170, 45, 192, 92, 131, 72, 112, 231, 195, 153, 228, 61, 214,
      69, 149, 60, 194, 227, 46, 204, 119, 29, 233, 221, 54, 134, 166, 241, 64], rfl⟩
  -- the genesis events; the hash of the validators starts behind ten bytes
  else if bs.getD 10 0 = 211 then
    ⟨[91, 169, 71, 157, 158, 136, 124, 255, 153, 173, 213, 210, 170, 226, 57, 41,
      39, 129, 219, 11, 134, 44, 5, 137, 236, 193, 197, 190, 132, 44, 140, 157], rfl⟩
  else
    ⟨[212, 231, 155, 222, 187, 85, 206, 165, 83, 28, 188, 2, 128, 138, 202, 87,
      128, 235, 12, 175, 241, 27, 150, 152, 67, 209, 242, 150, 76, 174, 81, 88], rfl⟩

/-- A network with one validator, whose public key is one byte. -/
def smallWorld (key : UInt8) : World :=
  { sampleWorld 1 with net := ⟨3, 1, [⟨1, [key], 1⟩], 1, []⟩, sha256 := sha256OfSmall }

theorem genesis_digest_iff_oneLength :
    ∃ s, applyGenesis (smallWorld 1) (newStore ⟨none, none, none⟩) =
        .ok (⟨genesisID (smallWorld 1), genesisID (smallWorld 1), true⟩, s) ∧
      applyGenesis (smallWorld 2) s =
        .error (.error ⟨genesisID (smallWorld 1), genesisID (smallWorld 2)⟩) := by
  obtain ⟨s, hfirst, hc, hstored⟩ := applyGenesis_first (smallWorld 1)
    (newStore_coherent ⟨none, none, none⟩) rfl
  have hmem : ∀ key, (smallWorld key).net.validators ∈ ListsWithin {1} 1 := by
    intro key v hv
    rw [List.mem_singleton.mp hv]
    exact ⟨rfl, by simp [stakeBytes]⟩
  refine ⟨s, hfirst, ((genesis_digest_iff {1} 1).mpr (.inr ⟨by simp, by decide⟩)).2
    (smallWorld 1)
    (smallWorld 2).net s hc hstored (hmem 1) (hmem 2) (by decide) ?_⟩
  have hdistinct : (([digestBytes (smallWorld 1).net.validators, signedPart (smallWorld 1),
      digestBytes (smallWorld 2).net.validators, signedPart (smallWorld 2)]).map
        fun x => calcEventID (sha256OfSmall x)).Nodup := by
    decide +kernel
  have hlist : ∀ x ∈ hashed (smallWorld 1) ∪ hashed (smallWorld 2),
      x ∈ [digestBytes (smallWorld 1).net.validators, signedPart (smallWorld 1),
        digestBytes (smallWorld 2).net.validators, signedPart (smallWorld 2)] := by
    rintro x ((rfl | rfl) | (rfl | rfl)) <;> simp
  intro x hx y hy heq
  exact List.inj_on_of_nodup_map hdistinct (hlist x hx) (hlist y hy) heq

/-! ## A stored genesis that does not protect -/

def firstKey : List UInt8 := 4 :: List.replicate 64 7

def secondKey : List UInt8 := 4 :: List.replicate 64 9

def twoValidators : List Validator := [⟨1, firstKey, 1⟩, ⟨2, secondKey, 1⟩]

/-- Its public key spells the end of the first validator and the second one. -/
def oneValidator : List Validator := [⟨1, firstKey ++ [1, 1] ++ idxBytes 2 ++ secondKey, 1⟩]

theorem genesisID_congr (w : World) {vv : List Validator}
    (h : digestBytes vv = digestBytes w.net.validators) :
    genesisID { w with net := { w.net with validators := vv } } = genesisID w := by
  have hhash : validatorsHash w.sha256 vv = validatorsHash w.sha256 w.net.validators :=
    congrArg w.sha256 h
  have hevent : genesisEvent { w with net := { w.net with validators := vv } } =
      genesisEvent w := by
    simp only [genesisEvent, hhash]
  simp only [genesisID, signedPart, hevent]

/-- A database of two validators is accepted for a network of one. -/
theorem other_validators_accepted :
    oneValidator ≠ twoValidators ∧ digestBytes oneValidator = digestBytes twoValidators ∧
    ∀ w : World, w.net.validators = twoValidators →
      ∃ s s', applyGenesis w (newStore ⟨none, none, none⟩) =
          .ok (⟨genesisID w, genesisID w, true⟩, s) ∧
        applyGenesis { w with net := { w.net with validators := oneValidator } } s =
          .ok (⟨genesisID w, genesisID w, false⟩, s') := by
  have hdigest : digestBytes oneValidator = digestBytes twoValidators := by decide +kernel
  refine ⟨by decide +kernel, hdigest, ?_⟩
  intro w hw
  obtain ⟨s, hfirst, hc, hstored⟩ := applyGenesis_first w
    (newStore_coherent ⟨none, none, none⟩) rfl
  have hid := genesisID_congr w (hdigest.trans (congrArg digestBytes hw.symm))
  exact ⟨s, _, hfirst, (applyGenesis_stored hc hstored).2 hid.symm⟩

end MiniOpera.GenesisDigest
