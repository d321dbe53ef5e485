import MiniOpera.EventCheck
import MiniOpera.MalformedEvents

/-!
# Built events

`Build` takes size and hash from the caches of the mutable event when they are
filled. They are empty at first; `MutableFrom` copies them, `UnmarshalBinary`
takes them from the message, and no setter empties them.

A built event describes its own encoding exactly when the caches, if filled, hold
what `Size` and `HashToSign` of the mutable event return at that moment
(`Whole.consistent_iff`). `built_events_consistent` says which histories of a mutable
event keep it so: messages that are accepted have canonical headers, and after the first
`MutableFrom` or accepted message no setter but `SetSig` changes a field. What is hashed
determines the fields (`unsigned_inj`), so any other step breaks it.
-/

namespace MiniOpera.BuiltEvents
open GoRuntime LittleEndian InterEvent EventWire EventDecode EventCodec EventCheck

/-- The setters, with the versions the encoding has room for. -/
inductive Setter
  | version (v : UInt8) (h : v.toNat < 16)
  | payload (v : List UInt8)
  | sig (v : Signature)
  | epoch (v : UInt32)
  | seq (v : UInt32)
  | frame (v : UInt32)
  | isRoot (v : Bool)
  | creator (v : UInt32)
  | lamport (v : UInt32)
  | parents (v : List EventID)
  | rawTime (v : UInt64)

def Setter.apply (m : MutableEvent) : Setter → MutableEvent
  | .version v _ => m.setVersion v
  | .payload v => m.setPayload v
  | .sig v => m.setSig v
  | .epoch v => m.setEpoch v
  | .seq v => m.setSeq v
  | .frame v => m.setFrame v
  | .isRoot v => m.setIsRoot v
  | .creator v => m.setCreator v
  | .lamport v => m.setLamport v
  | .parents v => m.setParents v
  | .rawTime v => m.setRawTime v

/-- The setter is given what the encoding of the event has already; a signature is not
part of what is hashed, and parents are encoded without their epoch. -/
def Setter.Same (m : MutableEvent) : Setter → Prop
  | .version v _ => v = m.version
  | .payload v => v = m.payload
  | .sig _ => True
  | .epoch v => v = m.epoch
  | .seq v => v = m.seq
  | .frame v => v = m.frame
  | .isRoot v => v = m.isRoot
  | .creator v => v = m.creator
  | .lamport v => v = m.lamport
  | .parents v => parentTails v = parentTails m.parents
  | .rawTime v => v = m.rawTime

/-- What a caller does with a mutable event: `MutableFrom` of what `Build` returns,
`UnmarshalBinary` into it, or a setter. -/
inductive Step
  | mutableFrom
  | unmarshal (raw : Slice UInt8)
  | set (s : Setter)

section

variable (sha256 : List UInt8 → Hash)

def Step.exec (m : MutableEvent) : Step → Go DecodeError MutableEvent
  | .mutableFrom => do
    let e ← m.build sha256
    return InterEvent.mutableFrom e
  | .unmarshal raw => .ok (m.unmarshalBinary sha256 raw).1
  | .set s => .ok (s.apply m)

/-- The mutable events a caller can get hold of, by steps that meet a condition. -/
inductive Obtained (cond : MutableEvent → Step → Prop) : MutableEvent → Prop
  | zero : Obtained cond .zero
  | step {m m' : MutableEvent} {s : Step} (hm : Obtained cond m) (hs : cond m s)
      (h : s.exec sha256 m = .ok m') : Obtained cond m'

/-- A setter, or a message that is refused. -/
def Drafting (m : MutableEvent) : Step → Prop
  | .mutableFrom => False
  | .unmarshal raw => (m.unmarshalBinary sha256 raw).2 ≠ none
  | .set _ => True

/-- Nothing but setters has changed the zero value. -/
def Drafted (m : MutableEvent) : Prop := Obtained sha256 (Drafting sha256) m

/-- A message that is accepted has canonical headers, and after the first `MutableFrom` or
accepted message no setter changes what is encoded. -/
def Safe (m : MutableEvent) : Step → Prop
  | .mutableFrom => True
  | .unmarshal raw => (m.unmarshalBinary sha256 raw).2 = none → CanonicalHeaders raw.data
  | .set s => Drafted sha256 m ∨ s.Same m

/-- Size, hash and ID are those of the event's own encoding. -/
def SelfDescribed (e : Event) : Prop :=
  ∃ b h, (e.marshalBinary : Go DecodeError _) = .ok b ∧
    (eventHashToSign sha256 b : Go DecodeError _) = .ok h ∧
    e.size = b.length ∧ (e.hashToSign : Go DecodeError _) = .ok h ∧
    e.id = ((mutableFrom e).setID (calcEventID h)).id

/-- `Build` returns an event that describes itself, with the hash of the mutable event. -/
def Consistent (m : MutableEvent) : Prop :=
  ∃ e, (m.build sha256 : Go DecodeError _) = .ok e ∧ SelfDescribed sha256 e ∧
    (e.hashToSign : Go DecodeError _) = m.hashToSign sha256

/-- What is cached, if anything, is what would be computed now. -/
def CachesCurrent (m : MutableEvent) : Prop :=
  ∀ h, m.hashToSignCache = some h →
    (m.hashToSign sha256 : Go DecodeError _) = .ok h ∧
      (m.size : Go DecodeError _) = .ok m.sizeCache

end

/-- The part of a message that is hashed. -/
def unsigned (b : List UInt8) : List UInt8 := b.take (b.length - sigSize)

/-- What the cached hash is the hash of after a step, if it was current before. -/
def Step.source (m : MutableEvent) : Step → List UInt8
  | .mutableFrom => unsigned (wire m.immutable)
  | .unmarshal raw => unsigned raw.data
  | .set _ => unsigned (wire m.immutable)

/-! ## The caches are filled together -/

/-- An encodable event with both caches or none. -/
structure Whole (m : MutableEvent) : Prop where
  version : m.version.toNat < 16
  caches : m.hashToSignCache = none ↔ m.sizeCache = 0

section Obtaining

variable {sha256 : List UInt8 → Hash} {m : MutableEvent}

theorem Setter.caches (s : Setter) (m : MutableEvent) :
    (s.apply m).hashToSignCache = m.hashToSignCache ∧ (s.apply m).sizeCache = m.sizeCache := by
  cases s <;> exact ⟨rfl, rfl⟩

theorem Whole.set (h : Whole m) (s : Setter) : Whole (s.apply m) := by
  cases s with
  | version v hv => exact ⟨hv, h.caches⟩
  | _ => exact ⟨h.version, h.caches⟩

variable (sha256) in
/-- `Build` of a mutable event without caches, and with them. -/
theorem Whole.build_cases (h : Whole m) :
    (m.hashToSignCache = none ∧
      (m.build sha256 : Go DecodeError _) = .ok (builtFrom sha256 m (wire m.immutable))) ∨
    ∃ cached, m.hashToSignCache = some cached ∧
      (m.build sha256 : Go DecodeError _) = .ok (m.setID (calcEventID cached)).immutable := by
  cases hc : m.hashToSignCache with
  | none => exact .inl ⟨rfl, build_uncached sha256 m (h.caches.mp hc) hc h.version⟩
  | some cached =>
    have hsize : m.sizeCache ≠ 0 := fun hzero => by simp [h.caches.mpr hzero] at hc
    refine .inr ⟨cached, rfl, ?_⟩
    simp [MutableEvent.build, hc, MutableEvent.setID, hsize]

theorem Whole.build (h : Whole m) {e : Event} (hb : (m.build sha256 : Go DecodeError _) = .ok e) :
    Whole (mutableFrom e) := by
  rcases h.build_cases sha256 with ⟨-, heq⟩ | ⟨cached, hc, heq⟩
  · rw [heq] at hb
    cases hb
    have hpos : (wire m.immutable).length ≠ 0 := by
      have hle := sigSize_le_wire m.immutable
      unfold sigSize at hle
      omega
    exact ⟨h.version, by simp [mutableFrom, builtFrom, hpos]⟩
  · rw [heq] at hb
    cases hb
    exact ⟨h.version, h.caches⟩

/-- A message is refused and the event left alone, or it is a message of valid parts. -/
theorem unmarshal_cases {m' : MutableEvent} {raw : Slice UInt8} {r : Option DecodeError}
    (h : m.unmarshalBinary sha256 raw = (m', r)) :
    (r ≠ none ∧ m' = m) ∨
    ∃ (p : Parts) (sig : Signature), r = none ∧ p.Valid ∧
      raw.data = p.bytes ∧ sig.data = p.sig ∧
      m' = received sha256 p sig m.id := by
  cases r with
  | some err =>
    have heq := MalformedEvents.unmarshalBinary_error sha256 m raw (congrArg Prod.snd h)
    rw [h] at heq
    refine .inl ⟨?_, heq⟩
    intro hnone
    cases hnone
  | none =>
    obtain ⟨p, sig, hp, hdata, hsig, heq⟩ := unmarshalBinary_inv sha256 h
    exact .inr ⟨p, sig, rfl, hp, hdata, hsig, heq⟩

theorem Whole.unmarshal (h : Whole m) {m' : MutableEvent} {raw : Slice UInt8}
    {r : Option DecodeError} (hu : m.unmarshalBinary sha256 raw = (m', r)) : Whole m' := by
  rcases unmarshal_cases hu with ⟨-, heq⟩ | ⟨p, sig, -, hp, -, -, heq⟩
  · rw [heq]
    exact h
  · have hlen := sigSize_le_bytes p hp
    have hpos : p.bytes.length ≠ 0 := by
      unfold sigSize at hlen
      omega
    rw [heq]
    exact ⟨show (0 : UInt8).toNat < 16 by decide, by simp [received, hpos]⟩

variable (sha256) in
/-- Every step returns. -/
theorem Whole.exec (h : Whole m) (s : Step) : ∃ m', s.exec sha256 m = .ok m' ∧ Whole m' := by
  cases s with
  | mutableFrom =>
    obtain ⟨e, he⟩ : ∃ e, (m.build sha256 : Go DecodeError _) = .ok e := by
      rcases h.build_cases sha256 with ⟨-, heq⟩ | ⟨cached, -, heq⟩
      · exact ⟨_, heq⟩
      · exact ⟨_, heq⟩
    refine ⟨mutableFrom e, ?_, h.build he⟩
    simp only [Step.exec, he, ok_bind, pure_eq_ok]
  | unmarshal raw => exact ⟨_, rfl, h.unmarshal (Prod.eta _).symm⟩
  | set s => exact ⟨_, rfl, h.set s⟩

/-- By the way the mutable event came about. -/
theorem Obtained.whole {cond : MutableEvent → Step → Prop}
    (h : Obtained sha256 cond m) : Whole m := by
  induction h with
  | zero => exact ⟨by decide, by simp [MutableEvent.zero]⟩
  | @step _ _ s _ _ hexec ih =>
    obtain ⟨m', hok, hm'⟩ := ih.exec sha256 s
    cases hexec.symm.trans hok
    exact hm'

theorem Drafted.uncached (h : Drafted sha256 m) : m.hashToSignCache = none := by
  unfold Drafted at h
  induction h with
  | zero => rfl
  | @step m m' s _ hs hexec ih =>
    cases s with
    | mutableFrom => exact absurd hs id
    | unmarshal raw =>
      obtain ⟨m1, r, hcall⟩ : ∃ m1 r, m.unmarshalBinary sha256 raw = (m1, r) := ⟨_, _, rfl⟩
      rw [Drafting, hcall] at hs
      rw [Step.exec, hcall] at hexec
      obtain rfl : m1 = m' := Except.ok.inj hexec
      rcases unmarshal_cases hcall with ⟨-, rfl⟩ | ⟨_, _, haccept, -⟩
      · exact ih
      · exact absurd haccept hs
    | set s =>
      obtain rfl : s.apply m = m' := Except.ok.inj hexec
      exact (s.caches m).1.trans ih

theorem Obtained.drafted {cond : MutableEvent → Step → Prop} (h : Obtained sha256 cond m)
    (hnone : m.hashToSignCache = none) : Drafted sha256 m := by
  induction h with
  | zero => exact .zero
  | @step m m' s hm _ hexec ih =>
    cases s with
    | mutableFrom =>
      obtain ⟨e, he, hret⟩ := bind_eq_ok hexec
      cases hret
      rcases hm.whole.build_cases sha256 with ⟨-, heq⟩ | ⟨cached, hcache, heq⟩
      · rw [heq] at he
        cases he
        cases hnone
      · rw [heq] at he
        cases he
        exact absurd (hcache.symm.trans hnone) (Option.some_ne_none _)
    | unmarshal raw =>
      obtain ⟨m1, r, hcall⟩ : ∃ m1 r, m.unmarshalBinary sha256 raw = (m1, r) := ⟨_, _, rfl⟩
      rw [Step.exec, hcall] at hexec
      obtain rfl : m1 = m' := Except.ok.inj hexec
      rcases unmarshal_cases hcall with ⟨-, rfl⟩ | ⟨p, sig, -, -, -, -, rfl⟩
      · exact ih hnone
      · cases hnone
    | set s =>
      obtain rfl : s.apply m = m' := Except.ok.inj hexec
      have hdraft : Drafted sha256 m := ih ((s.caches m).1.symm.trans hnone)
      exact hdraft.step (s := .set s) trivial rfl

/-- `MutableFrom` and accepted messages fill the caches, and nothing empties them. -/
theorem Obtained.drafted_iff {cond : MutableEvent → Step → Prop} (h : Obtained sha256 cond m) :
    Drafted sha256 m ↔ m.hashToSignCache = none :=
  ⟨Drafted.uncached, h.drafted⟩

end Obtaining

/-! ## What `Build` returns -/

section Building

variable {sha256 : List UInt8 → Hash} {m : MutableEvent}

theorem size_eq (hv : m.version.toNat < 16) :
    (m.size : Go DecodeError _) = .ok (wire m.immutable).length := by
  simp only [MutableEvent.size, marshalBinary_eq_wire m.immutable hv, ok_bind, pure_eq_ok]

/-- In terms of the wire format. -/
theorem selfDescribed_iff {e : Event} (hv : e.version.toNat < 16) :
    SelfDescribed sha256 e ↔
      e.sizeCache = (wire e).length ∧ e.hashToSignCache = some (sha256 (unsigned (wire e))) ∧
      e.id = ((mutableFrom e).setID (calcEventID (sha256 (unsigned (wire e))))).id := by
  have hm := marshalBinary_eq_wire (ε := DecodeError) e hv
  have hhash : (eventHashToSign sha256 (wire e) : Go DecodeError _) =
      .ok (sha256 (unsigned (wire e))) := if_pos (sigSize_le_wire e)
  constructor
  · rintro ⟨b, h, hb, hh, hsize, hcache, hid⟩
    rw [hm] at hb
    cases hb
    rw [hhash] at hh
    cases hh
    refine ⟨hsize, ?_, hid⟩
    unfold Event.hashToSign at hcache
    split at hcache
    · next h hc => rw [hc, Except.ok.inj hcache]
    · cases hcache
  · rintro ⟨hsize, hcache, hid⟩
    exact ⟨wire e, _, hm, hhash, hsize, by rw [Event.hashToSign, hcache], hid⟩

theorem builtFrom_selfDescribed (hv : m.version.toNat < 16) :
    SelfDescribed sha256 (builtFrom sha256 m (wire m.immutable)) :=
  (selfDescribed_iff hv).mpr ⟨rfl, rfl, rfl⟩

theorem cachesCurrent_iff (hv : m.version.toNat < 16) :
    CachesCurrent sha256 m ↔ ∀ h, m.hashToSignCache = some h →
      h = sha256 (unsigned (wire m.immutable)) ∧ m.sizeCache = (wire m.immutable).length := by
  unfold CachesCurrent
  rw [hashToSign_eq sha256 m hv, size_eq hv]
  simp only [Except.ok.injEq, unsigned, eq_comm]

/-- A built event describes itself exactly when the caches, if filled, hold what `Size` and
`HashToSign` of the mutable event return. -/
theorem Whole.consistent_iff (h : Whole m) : Consistent sha256 m ↔ CachesCurrent sha256 m := by
  have hv := h.version
  have hhash := hashToSign_eq (ε := DecodeError) sha256 m hv
  rcases h.build_cases sha256 with ⟨hnone, hbuild⟩ | ⟨cached, hc, hbuild⟩
  · -- nothing is cached: everything is computed
    constructor
    · intro _ h hsome
      rw [hnone] at hsome
      cases hsome
    · intro _
      refine ⟨_, hbuild, builtFrom_selfDescribed hv, ?_⟩
      rw [hhash]
      rfl
  · have hcached : ((m.setID (calcEventID cached)).immutable.hashToSign : Go DecodeError _) =
        .ok cached := by
      simp only [Event.hashToSign, MutableEvent.immutable, MutableEvent.setID, hc]
    constructor
    · rintro ⟨e, hb, hself, hsame⟩ h hsome
      rw [hc] at hsome
      cases hsome
      rw [hbuild] at hb
      cases hb
      obtain ⟨hsize, -, -⟩ := (selfDescribed_iff hv).mp hself
      exact ⟨hsame.symm.trans hcached, (size_eq hv).trans (congrArg _ hsize.symm)⟩
    · intro hcurrent
      obtain ⟨hh, hsize⟩ := hcurrent cached hc
      rw [size_eq hv] at hsize
      refine ⟨_, hbuild, (selfDescribed_iff hv).mpr ⟨(Except.ok.inj hsize).symm, ?_, ?_⟩,
        hcached.trans hh.symm⟩
      · rw [hhash] at hh
        exact hc.trans (congrArg some (Except.ok.inj hh).symm)
      · rw [hhash] at hh
        rw [← Except.ok.inj hh]
        rfl

end Building

/-! ## What is hashed -/

section Unsigned

variable {e e' : Event}

theorem wire_unsigned (e : Event) : unsigned (wire e) = header3 e ++ (header2 e ++
    ((timeBytes e).flatten ++ ((fieldBytes e).flatten ++ ((parentTails e.parents).flatten ++
      e.payload)))) := by
  have hlen : (wire e).length - sigSize = (header3 e ++ (header2 e ++ ((timeBytes e).flatten ++
      ((fieldBytes e).flatten ++ ((parentTails e.parents).flatten ++ e.payload))))).length := by
    have := e.sig.size
    simp only [wire, body, List.length_append]
    omega
  rw [unsigned, hlen]
  simp only [wire, body, ← List.append_assoc]
  rw [List.take_left]

theorem wire_split (e : Event) : wire e = unsigned (wire e) ++ e.sig.data := by
  rw [wire_unsigned]
  simp only [wire, body, List.append_assoc]

theorem wire_length (e : Event) : (wire e).length = (unsigned (wire e)).length + sigSize := by
  conv_lhs => rw [wire_split, List.length_append, e.sig.size]

theorem compacts_inj {size : Nat} {xs ys : List UInt64} (hx : ∀ x ∈ xs, x.toNat < 256 ^ size)
    (hy : ∀ y ∈ ys, y.toNat < 256 ^ size) (h : compacts size xs = compacts size ys) :
    xs = ys := by
  have hval : ∀ zs : List UInt64, (∀ z ∈ zs, z.toNat < 256 ^ size) →
      (compacts size zs).map leNat = zs.map UInt64.toNat := by
    intro zs hz
    rw [compacts, List.map_map]
    exact List.map_congr_left fun z hmem => leNat_compact size _ (hz z hmem)
  have hnat := congrArg (List.map leNat) h
  rw [hval xs hx, hval ys hy] at hnat
  exact (List.map_inj_right fun _ _ => UInt64.toNat_inj.mp).mp hnat

theorem slots_inj {size : Nat} (hsize : 0 < size) {xs ys : List UInt64}
    (h : slots (compacts size xs) = slots (compacts size ys)) :
    (compacts size xs).map List.length = (compacts size ys).map List.length := by
  have hlength : ∀ zs : List UInt64,
      (compacts size zs).map List.length = (slots (compacts size zs)).map (· + 1) := by
    intro zs
    simp only [slots, compacts, List.map_map]
    refine List.map_congr_left fun z _ => ?_
    have := compact_length_pos size z.toNat hsize
    simp only [Function.comp]
    omega
  rw [hlength, hlength, h]

theorem leBytes_inj {n u v : Nat} (hu : u < 256 ^ n) (hv : v < 256 ^ n)
    (h : leBytes n u = leBytes n v) : u = v := by
  have hval := congrArg leNat h
  rwa [leNat_leBytes n u hu, leNat_leBytes n v hv] at hval

/-- Header 3 tells the version and the length of the time. -/
theorem header3_inj (hv : e.version.toNat < 16) (hv' : e'.version.toNat < 16)
    (h : header3 e = header3 e') :
    e.version = e'.version ∧ (timeBytes e).map List.length = (timeBytes e').map List.length := by
  have hslots : ∀ x : Event, x.version.toNat < 16 →
      ∀ v ∈ x.version.toNat :: slots (timeBytes x), v < 2 ^ 4 := by
    intro x hx v hmem
    rcases List.mem_cons.mp hmem with rfl | hmem
    · exact hx
    · obtain ⟨bs, hbs, rfl⟩ := List.mem_map.mp hmem
      obtain ⟨t, -, rfl⟩ := List.mem_map.mp hbs
      have := compact_length_le 8 t.toNat
      omega
  have hlt : ∀ x : Event, x.version.toNat < 16 →
      packBits 4 (x.version.toNat :: slots (timeBytes x)) < 256 ^ 1 :=
    fun x hx => Nat.lt_of_lt_of_le (packBits_lt 4 _ (hslots x hx))
      (show 2 ^ (4 * 2) ≤ 256 ^ 1 by decide)
  have hpack := leBytes_inj (hlt e hv) (hlt e' hv') h
  have hlen : (e.version.toNat :: slots (timeBytes e)).length =
      (e'.version.toNat :: slots (timeBytes e')).length := rfl
  have hlist := packBits_inj hlen (hslots e hv) (hslots e' hv') hpack
  injection hlist with hversion htime
  exact ⟨UInt8.toNat_inj.mp hversion, slots_inj (by decide) htime⟩

/-- Header 2 tells the lengths of the fields and the flag. -/
theorem header2_inj (h : header2 e = header2 e') :
    (fieldBytes e).map List.length = (fieldBytes e').map List.length ∧ e.isRoot = e'.isRoot := by
  have hslots : ∀ x : Event, ∀ v ∈ slots (fieldBytes x) ++ [rootSlot x], v < 2 ^ 2 := by
    intro x v hmem
    rcases List.mem_append.mp hmem with hmem | hmem
    · exact slots_fieldBytes_lt x v hmem
    · rw [List.mem_singleton.mp hmem]
      exact rootSlot_lt x
  have hlt : ∀ x : Event, packBits 2 (slots (fieldBytes x) ++ [rootSlot x]) < 256 ^ 2 := by
    intro x
    exact Nat.lt_trans (packBits_lt 2 _ (hslots x)) (show 2 ^ (2 * 7) < 256 ^ 2 by decide)
  have hpack := leBytes_inj (hlt e) (hlt e') h
  have hlen : (slots (fieldBytes e)).length = (slots (fieldBytes e')).length := rfl
  have hlist := packBits_inj (by rw [List.length_append, List.length_append, hlen]; rfl) (hslots e)
    (hslots e') hpack
  obtain ⟨hfields, hroot⟩ := List.append_inj hlist hlen
  refine ⟨slots_inj (by decide) hfields, ?_⟩
  unfold rootSlot at hroot
  cases h1 : e.isRoot <;> cases h2 : e'.isRoot <;> simp_all

/-- What is hashed determines the fields; of the parents and the payload it has the bytes
one after the other. -/
theorem unsigned_inj (hv : e.version.toNat < 16) (hv' : e'.version.toNat < 16)
    (h : unsigned (wire e) = unsigned (wire e')) :
    e.version = e'.version ∧ e.rawTime = e'.rawTime ∧ e.fields32 = e'.fields32 ∧
      e.isRoot = e'.isRoot ∧ (parentTails e.parents).flatten ++ e.payload =
        (parentTails e'.parents).flatten ++ e'.payload := by
  rw [wire_unsigned, wire_unsigned] at h
  obtain ⟨h3, h⟩ := List.append_inj h (by simp only [header3, leBytes_length])
  obtain ⟨h2, h⟩ := List.append_inj h (by simp only [header2, leBytes_length])
  obtain ⟨hversion, htimes⟩ := header3_inj hv hv' h3
  obtain ⟨hlengths, hroot⟩ := header2_inj h2
  obtain ⟨htime, h⟩ := List.append_inj h
    (by rw [List.length_flatten, List.length_flatten, htimes])
  obtain ⟨hfield, h⟩ := List.append_inj h
    (by rw [List.length_flatten, List.length_flatten, hlengths])
  have htime' := compacts_inj (fun x _ => x.toNat_lt) (fun x _ => x.toNat_lt)
    (List.eq_iff_flatten_eq.mpr ⟨htime, htimes⟩)
  have hbound : ∀ xs : List UInt32, ∀ x ∈ xs.map UInt32.toUInt64, x.toNat < 256 ^ 4 := by
    intro xs x hx
    obtain ⟨y, -, rfl⟩ := List.mem_map.mp hx
    rw [UInt32.toNat_toUInt64]
    exact y.toNat_lt
  have hfield' := compacts_inj (hbound _) (hbound _)
    (List.eq_iff_flatten_eq.mpr ⟨hfield, hlengths⟩)
  have hinj : ∀ x y : UInt32, x.toUInt64 = y.toUInt64 → x = y := by
    intro x y hxy
    have := congrArg UInt64.toNat hxy
    rw [UInt32.toNat_toUInt64, UInt32.toNat_toUInt64] at this
    exact UInt32.toNat_inj.mp this
  refine ⟨hversion, ?_, (List.map_inj_right hinj).mp hfield', hroot, h⟩
  exact (List.cons.inj htime').1

/-- All tails have 28 bytes. -/
theorem parentTails_inj {ps qs : List EventID}
    (h : (parentTails ps).flatten = (parentTails qs).flatten) :
    parentTails ps = parentTails qs := by
  have hlengths : ∀ rs : List EventID, (parentTails rs).map List.length =
      List.replicate rs.length 28 := by
    intro rs
    rw [parentTails, List.map_map]
    refine List.eq_replicate_iff.mpr ⟨List.length_map .., ?_⟩
    intro n hn
    obtain ⟨p, -, rfl⟩ := List.mem_map.mp hn
    simp [p.size]
  have hcount := congrArg List.length h
  rw [List.length_flatten, List.length_flatten, hlengths, hlengths, List.sum_replicate_nat,
    List.sum_replicate_nat] at hcount
  refine List.eq_iff_flatten_eq.mpr ⟨h, ?_⟩
  rw [hlengths, hlengths, Nat.eq_of_mul_eq_mul_right (by decide) hcount]

/-- A setter leaves what is hashed exactly if it is given what is there. -/
theorem Setter.unsigned_iff {m : MutableEvent} (hv : m.version.toNat < 16) (s : Setter) :
    unsigned (wire (s.apply m).immutable) = unsigned (wire m.immutable) ↔ s.Same m := by
  have hv' : (s.apply m).immutable.version.toNat < 16 := by
    cases s with
    | version v h => exact h
    | _ => exact hv
  constructor
  · intro h
    obtain ⟨hversion, htime, hfields, hroot, hrest⟩ := unsigned_inj hv' hv h
    simp only [Event.fields32, List.cons.injEq] at hfields
    obtain ⟨hepoch, hseq, hframe, hcreator, hlamport, -⟩ := hfields
    cases s with
    | version v h => exact hversion
    | payload v => exact List.append_cancel_left hrest
    | sig v => trivial
    | epoch v => exact hepoch
    | seq v => exact hseq
    | frame v => exact hframe
    | isRoot v => exact hroot
    | creator v => exact hcreator
    | lamport v => exact hlamport
    | parents v => exact parentTails_inj (List.append_cancel_right hrest)
    | rawTime v => exact htime
  · intro h
    cases s with
    | sig v => rw [wire_unsigned, wire_unsigned]; rfl
    | parents v =>
      have hlen : v.length = m.parents.length := by
        have := congrArg List.length h
        rwa [parentTails, parentTails, List.length_map, List.length_map] at this
      have hfields : ((Setter.parents v).apply m).immutable.fields32 = m.immutable.fields32 := by
        simp only [Event.fields32, Setter.apply, MutableEvent.setParents,
          MutableEvent.immutable, hlen]
      have hbytes : fieldBytes ((Setter.parents v).apply m).immutable = fieldBytes m.immutable := by
        rw [fieldBytes, fieldBytes, hfields]
      rw [wire_unsigned, wire_unsigned, header2, header2, hbytes]
      simp only [Setter.apply, MutableEvent.setParents, MutableEvent.immutable, show
        parentTails v = parentTails m.parents from h]
      rfl
    | _ =>
      cases h
      rfl

end Unsigned

/-! ## Steps -/

section Steps

variable {sha256 : List UInt8 → Hash} {m m' : MutableEvent}

variable (sha256) in
/-- The caches come from a message and the event holds what was read from it. -/
theorem received_current {p : Parts} (hp : p.Valid) {sig : Signature} (hsig : sig.data = p.sig)
    (id : EventID) :
    (CanonicalHeaders p.bytes → CachesCurrent sha256 (received sha256 p sig id)) ∧
    ((sha256 (unsigned p.bytes) = sha256 (unsigned (wire (received sha256 p sig id).immutable)) →
        unsigned p.bytes = unsigned (wire (received sha256 p sig id).immutable)) →
      CachesCurrent sha256 (received sha256 p sig id) → CanonicalHeaders p.bytes) := by
  have hiff := wire_received_iff sha256 hp sig id hsig
  rw [cachesCurrent_iff (show (0 : UInt8).toNat < 16 by decide)]
  constructor
  · intro hcanon h hcache
    cases hcache
    rw [hiff.mpr hcanon]
    exact ⟨rfl, rfl⟩
  · intro hfree hcurrent
    obtain ⟨hhash, -⟩ := hcurrent _ rfl
    have hsame := hfree hhash
    have hlast : p.bytes = unsigned p.bytes ++ p.sig := by
      have hlen := hp.sig_length
      have hdrop : p.bytes = (p.h0 :: p.h1 :: p.h2 ::
          (p.time ++ p.fields.flatten ++ p.tails.flatten ++ p.payload)) ++ p.sig := by
        simp [Parts.bytes]
      rw [unsigned]
      conv_rhs => rw [hdrop]
      rw [List.length_append, hlen, Nat.add_sub_cancel, List.take_left, ← hdrop]
    refine hiff.mp ?_
    rw [wire_split, ← hsame]
    conv_rhs => rw [hlast, ← hsig]
    rfl

/-- A copy of what `Build` returns. -/
theorem Whole.copy_current (h : Whole m) (hc : CachesCurrent sha256 m) {e : Event}
    (he : (m.build sha256 : Go DecodeError _) = .ok e) : CachesCurrent sha256 (mutableFrom e) := by
  rw [cachesCurrent_iff (h.build he).version]
  rcases h.build_cases sha256 with ⟨-, heq⟩ | ⟨cached, hcache, heq⟩
  · rw [heq] at he
    cases he
    intro x hx
    cases hx
    exact ⟨rfl, rfl⟩
  · rw [heq] at he
    cases he
    exact (cachesCurrent_iff h.version).mp hc

/-- Setters leave the caches as they are. -/
theorem Whole.set_current (h : Whole m) (hc : CachesCurrent sha256 m) (s : Setter) :
    (m.hashToSignCache = none ∨ s.Same m → CachesCurrent sha256 (s.apply m)) ∧
    ((sha256 (unsigned (wire m.immutable)) = sha256 (unsigned (wire (s.apply m).immutable)) →
        unsigned (wire m.immutable) = unsigned (wire (s.apply m).immutable)) →
      CachesCurrent sha256 (s.apply m) → m.hashToSignCache = none ∨ s.Same m) := by
  have hcaches := s.caches m
  have hiff := s.unsigned_iff h.version
  have hcm := (cachesCurrent_iff h.version).mp hc
  rw [cachesCurrent_iff (h.set s).version, hcaches.1, hcaches.2]
  constructor
  · rintro (hnone | hsame) x hx
    · rw [hnone] at hx
      cases hx
    · rw [wire_length, hiff.mpr hsame, ← wire_length]
      exact hcm x hx
  · intro hfree hcurrent
    cases hcache : m.hashToSignCache with
    | none => exact .inl rfl
    | some x =>
      obtain ⟨hhash, -⟩ := hcm x hcache
      obtain ⟨hhash', -⟩ := hcurrent x hcache
      exact .inr (hiff.mp (hfree (hhash.symm.trans hhash')).symm)

/-- **What a step does to current caches.** They stay current if the step is safe, and only
then unless two of the strings that are hashed have one hash. -/
theorem Obtained.step_current {cond : MutableEvent → Step → Prop} (hm : Obtained sha256 cond m)
    (hc : CachesCurrent sha256 m) {s : Step} (hexec : s.exec sha256 m = .ok m') :
    (Safe sha256 m s → CachesCurrent sha256 m') ∧
    ((sha256 (s.source m) = sha256 (unsigned (wire m'.immutable)) →
        s.source m = unsigned (wire m'.immutable)) →
      CachesCurrent sha256 m' → Safe sha256 m s) := by
  have h := hm.whole
  cases s with
  | mutableFrom =>
    obtain ⟨e, he, hret⟩ := bind_eq_ok hexec
    cases hret
    exact ⟨fun _ => h.copy_current hc he, fun _ _ => trivial⟩
  | unmarshal raw =>
    obtain ⟨m1, r, hcall⟩ : ∃ m1 r, m.unmarshalBinary sha256 raw = (m1, r) := ⟨_, _, rfl⟩
    have hsafe : Safe sha256 m (.unmarshal raw) ↔ (r = none → CanonicalHeaders raw.data) := by
      rw [Safe, hcall]
    rw [Step.exec, hcall] at hexec
    obtain rfl : m1 = m' := Except.ok.inj hexec
    rw [hsafe]
    rcases unmarshal_cases hcall with
      ⟨hrefused, heq⟩ | ⟨p, sig, haccept, hp, hdata, hsig, heq⟩
    · rw [heq]
      exact ⟨fun _ => hc, fun _ _ haccept => absurd haccept hrefused⟩
    · obtain ⟨hkeep, honly⟩ := received_current sha256 hp hsig m.id
      have hsource : (Step.unmarshal raw).source m = unsigned p.bytes := by
        rw [← hdata]
        rfl
      rw [heq, hdata, hsource]
      exact ⟨fun hall => hkeep (hall haccept), fun hfree hcurrent _ => honly hfree hcurrent⟩
  | set s =>
    obtain rfl : s.apply m = m' := Except.ok.inj hexec
    rw [Safe, hm.drafted_iff]
    exact h.set_current hc s

/-- The caches of an event that was obtained by safe steps are current. -/
theorem Obtained.current (h : Obtained sha256 (Safe sha256) m) : CachesCurrent sha256 m := by
  induction h with
  | zero =>
    intro h hsome
    cases hsome
  | step hm hs hexec ih => exact (hm.step_current ih hexec).1 hs

end Steps

/-- **Which histories build events that describe themselves.** Every event that was obtained
by safe steps does. Every further step returns; after it `Build` describes itself if the step
is safe, and only then, unless what is encoded has the hash of the other bytes that the cached
hash was computed from. -/
theorem built_events_consistent (sha256 : List UInt8 → Hash) (m : MutableEvent)
    (hm : Obtained sha256 (Safe sha256) m) :
    Consistent sha256 m ∧ ∀ s : Step, ∃ m', s.exec sha256 m = .ok m' ∧
      (Safe sha256 m s → Consistent sha256 m') ∧
      ((sha256 (s.source m) = sha256 (unsigned (wire m'.immutable)) →
          s.source m = unsigned (wire m'.immutable)) →
        Consistent sha256 m' → Safe sha256 m s) := by
  have hwhole := hm.whole
  refine ⟨hwhole.consistent_iff.mpr hm.current, ?_⟩
  intro s
  obtain ⟨m', hexec, hwhole'⟩ := hwhole.exec sha256 s
  obtain ⟨hkeep, honly⟩ := hm.step_current hm.current hexec
  refine ⟨m', hexec, ?_, ?_⟩
  · intro hs
    exact hwhole'.consistent_iff.mpr (hkeep hs)
  · intro hfree hcons
    exact honly hfree (hwhole'.consistent_iff.mp hcons)

/-- A digest that keeps the last bytes. -/
def lastBytes (b : List UInt8) : Hash := copyInto 32 b.reverse

def zeroBuilt : Event := builtFrom lastBytes .zero (wire MutableEvent.zero.immutable)

def zeroParent : EventID := Bytes.zero 32

/-- An event with a parent and a payload. -/
def sampleDraft : MutableEvent :=
  ((MutableEvent.zero.setEpoch 1).setParents [zeroParent]).setPayload [5]

def sampleBuilt : Event := builtFrom lastBytes sampleDraft (wire sampleDraft.immutable)

theorem sampleBuilt_obtained : Obtained lastBytes (Safe lastBytes) (mutableFrom sampleBuilt) := by
  have hbuild : (sampleDraft.build lastBytes : Go DecodeError _) = .ok sampleBuilt :=
    build_uncached lastBytes sampleDraft rfl rfl (by decide)
  have hzero : Obtained lastBytes (Safe lastBytes) .zero := .zero
  have hepoch := hzero.step (s := .set (.epoch 1)) (.inl .zero) rfl
  have hparents := hepoch.step (s := .set (.parents [zeroParent]))
    (.inl (hepoch.drafted_iff.mpr rfl)) rfl
  have hdraft : Obtained lastBytes (Safe lastBytes) sampleDraft :=
    hparents.step (s := .set (.payload [5])) (.inl (hparents.drafted_iff.mpr rfl)) rfl
  refine hdraft.step (s := .mutableFrom) trivial ?_
  simp only [Step.exec, hbuild, ok_bind, pure_eq_ok]

/-- A copy of a built event can be signed, but another payload makes it inconsistent. -/
theorem built_events_consistent_copied :
    ∃ m e, Obtained lastBytes (Safe lastBytes) m ∧ m.hashToSignCache ≠ none ∧
      (m.build lastBytes : Go DecodeError _) = .ok e ∧ SelfDescribed lastBytes e ∧
      Consistent lastBytes (m.setSig ⟨List.replicate 64 1, rfl⟩) ∧
      ¬ Consistent lastBytes (m.setPayload [1]) := by
  have hcached : (mutableFrom sampleBuilt).hashToSignCache ≠ none := by decide +kernel
  obtain ⟨⟨e, he, hself, -⟩, hsteps⟩ :=
    built_events_consistent lastBytes _ sampleBuilt_obtained
  refine ⟨_, e, sampleBuilt_obtained, hcached, he, hself, ?_, ?_⟩
  · obtain ⟨m', hexec, hkeep, -⟩ := hsteps (.set (.sig ⟨List.replicate 64 1, rfl⟩))
    cases hexec
    exact hkeep (.inr trivial)
  · obtain ⟨m', hexec, -, honly⟩ := hsteps (.set (.payload [1]))
    cases hexec
    intro hcons
    -- the two strings end differently
    have hfree : lastBytes (unsigned (wire (mutableFrom sampleBuilt).immutable)) ≠
        lastBytes (unsigned (wire ((mutableFrom sampleBuilt).setPayload [1]).immutable)) := by
      decide +kernel
    rcases honly (fun hsame => absurd hsame hfree) hcons with hdraft | hsame
    · exact hcached (sampleBuilt_obtained.drafted_iff.mp hdraft)
    · exact absurd (show ([1] : List UInt8) = [5] from hsame) (by decide)

/-- The message of the zero event with nine bytes of time; the ninth is dropped. -/
def nineByteTime : List UInt8 :=
  0x80 :: List.replicate 10 0 ++ 1 :: List.replicate 70 0

/-- A new payload is built with the size, the hash and the ID of the old event;
the size of a message is not that of the event it holds. -/
theorem stale_caches_built :
    (∃ e e' b, (MutableEvent.zero.build lastBytes : Go DecodeError _) = .ok e ∧
      (((mutableFrom e).setPayload [1]).build lastBytes : Go DecodeError _) = .ok e' ∧
      (e'.marshalBinary : Go DecodeError _) = .ok b ∧ e'.size = 74 ∧ b.length = 75 ∧
      (e'.hashToSign : Go DecodeError _) ≠
        ((mutableFrom e).setPayload [1]).hashToSign lastBytes ∧
      e'.id = e.id) ∧
    ∃ m e' b, MutableEvent.zero.unmarshalBinary lastBytes ⟨nineByteTime, []⟩ = (m, none) ∧
      (m.build lastBytes : Go DecodeError _) = .ok e' ∧
      (e'.marshalBinary : Go DecodeError _) = .ok b ∧ e'.size = 82 ∧ b.length = 74 := by
  refine ⟨⟨zeroBuilt, ((mutableFrom zeroBuilt).setPayload [1]).immutable,
    [0, 0, 0] ++ List.replicate 7 0 ++ [1] ++ List.replicate 64 0, ?_⟩, ?_⟩
  · decide +kernel
  · exact ⟨{ MutableEvent.zero with
        sizeCache := 82, hashToSignCache := some (lastBytes (nineByteTime.take 18)) }, _,
      List.replicate 74 0, by decide +kernel, rfl, by decide +kernel, rfl, rfl⟩

end MiniOpera.BuiltEvents
