import MiniOpera.EventWire

/-!
# The byte strings `UnmarshalBinary` accepts

`decode_iff`: the reading part of `UnmarshalBinary` returns `d` exactly on the
byte strings that split into valid `Parts` whose value is `d`: three header
bytes, a time of one to sixteen bytes, six fields of one to four bytes, as many
28-byte parent tails as the last field says, a payload and a signature. The
bytes behind the slice's length play no part, although single reads may reach
them.
-/

namespace MiniOpera.EventDecode
open GoRuntime LittleEndian Fast InterEvent

/-! ## Reading at a cursor -/

/-- The bytes from the buffer's cursor to the end of its capacity. -/
structure At (b : Buffer) (rest : List UInt8) : Prop where
  inside : b.offset ≤ b.buf.backing.length
  rest_eq : b.buf.backing.drop b.offset = rest

theorem At.advance {b : Buffer} {bs rest : List UInt8} (h : At b (bs ++ rest)) :
    At ⟨b.buf, b.offset + bs.length⟩ rest := by
  have hlen := congrArg List.length h.rest_eq
  simp only [List.length_drop, List.length_append] at hlen
  refine ⟨?_, ?_⟩
  · have := h.inside
    simp only
    omega
  · simp only
    rw [← List.drop_drop, h.rest_eq, List.drop_left]

theorem read_at {b : Buffer} {bs rest : List UInt8} (h : At b (bs ++ rest)) :
    (b.read bs.length : Go DecodeError _) = .ok (bs, ⟨b.buf, b.offset + bs.length⟩) := by
  have hin := h.advance.inside
  simp only at hin
  simp only [Buffer.read, Slice.sub, Nat.le_add_right, hin, and_self, if_true, ok_bind, pure_eq_ok,
    h.rest_eq, Nat.add_sub_cancel_left, List.take_left]

theorem read_inv {b b' : Buffer} {n : Nat} {bs rest₀ : List UInt8} (hat : At b rest₀)
    (h : (b.read n : Go DecodeError _) = .ok (bs, b')) :
    bs.length = n ∧ b' = ⟨b.buf, b.offset + n⟩ ∧ ∃ rest, rest₀ = bs ++ rest ∧
      At b' rest := by
  obtain ⟨hbs, hlen, hb'⟩ := read_ok h
  rw [hat.rest_eq] at hbs
  have hsplit : rest₀ = bs ++ rest₀.drop n := by rw [hbs, List.take_append_drop]
  refine ⟨hlen, hb', rest₀.drop n, hsplit, ?_⟩
  rw [hb', ← hlen]
  rw [← hlen] at hsplit
  exact (hsplit ▸ hat : At b (bs ++ rest₀.drop bs.length)).advance

/-- The value the digit loop of `readUintCompact` computes, modulo 2^64. -/
theorem sumBytes_eq (i : Nat) (v : UInt64) (bs : List UInt8) :
    sumBytes i v bs = v + UInt64.ofNat (2 ^ (8 * i) * leNat bs) := by
  induction bs generalizing i v with
  | nil => simp [sumBytes, leNat]
  | cons b bs ih =>
    rw [sumBytes, ih, UInt64.add_assoc, ← UInt64.ofNat_add, leNat, Nat.shiftLeft_eq, Nat.mul_succ,
      Nat.pow_add, Nat.mul_add, Nat.mul_comm b.toNat, Nat.mul_assoc]

def valueOf (bs : List UInt8) : UInt64 := UInt64.ofNat (leNat bs)

theorem sumBytes_zero (bs : List UInt8) : sumBytes 0 0 bs = valueOf bs := by
  simp [sumBytes_eq, valueOf]

/-- Both outcomes of `readUintCompact` on bytes that are there. -/
theorem readUintCompact_eq {b : Buffer} {bs rest : List UInt8} (h : At b (bs ++ rest)) :
    readUintCompact b bs.length =
      if Minimal bs then .ok (valueOf bs, ⟨b.buf, b.offset + bs.length⟩)
      else .error (.error .nonCanonicalEncoding) := by
  simp only [readUintCompact, read_at h, ok_bind, sumBytes_zero, pure_eq_ok]
  by_cases hm : Minimal bs
  · rw [if_pos hm, if_neg fun hc => hm hc.1 hc.2]
  · obtain ⟨hlen, hlast⟩ := (not_minimal_iff bs).mp hm
    rw [if_neg hm, if_pos ⟨hlen, by rw [hlast]; rfl⟩]

theorem readUintCompact_at {b : Buffer} {bs rest : List UInt8} (h : At b (bs ++ rest))
    (hm : Minimal bs) :
    readUintCompact b bs.length = .ok (valueOf bs, ⟨b.buf, b.offset + bs.length⟩) := by
  rw [readUintCompact_eq h, if_pos hm]

theorem readUintCompact_inv {b b' : Buffer} {n : Nat} {v : UInt64} {rest₀ : List UInt8}
    (hat : At b rest₀) (h : readUintCompact b n = .ok (v, b')) :
    ∃ bs rest, rest₀ = bs ++ rest ∧ bs.length = n ∧ Minimal bs ∧ v = valueOf bs ∧
      b' = ⟨b.buf, b.offset + n⟩ ∧ At b' rest := by
  obtain ⟨⟨bs, b₁⟩, hread, -⟩ := bind_eq_ok h
  obtain ⟨hlen, hb₁, rest, rfl, hat'⟩ := read_inv hat hread
  subst hlen hb₁
  rw [readUintCompact_eq hat] at h
  split at h
  · next hm =>
    cases h
    exact ⟨bs, rest, rfl, rfl, hm, rfl, rfl, hat'⟩
  · cases h

/-! ## Headers -/

/-- The `i`-th slot of a bit array spelling the number `N`. -/
def slot (bits N i : Nat) : Nat := N / 2 ^ (i * bits) % 2 ^ bits

theorem pop_slot (bits count i size : Nat) (raw : List UInt8) (hw : SlotWidth bits)
    (hfit : (i + 1) * bits ≤ 8 * raw.length) :
    (BitArrayReader.pop ⟨⟨bits, count, i, size⟩, raw⟩ : Go DecodeError _) =
      .ok (slot bits (leNat raw) i, ⟨⟨bits, count, i + 1, size⟩, raw⟩) :=
  pop_spec ⟨⟨bits, count, i, size⟩, raw⟩ hw hfit

/-- The lengths `k` slots from the `i`-th on announce. -/
def announced (bits N i k : Nat) : List Nat := (List.range k).map fun j => slot bits N (i + j) + 1

theorem announced_succ (bits N i k : Nat) :
    announced bits N i (k + 1) = (slot bits N i + 1) :: announced bits N (i + 1) k := by
  simp only [announced, List.range_succ_eq_map, List.map_cons, List.map_map, Nat.add_zero,
    List.cons.injEq, true_and]
  apply List.map_congr_left
  intro j _
  simp only [Function.comp, Nat.succ_eq_add_one]
  rw [Nat.add_right_comm, Nat.add_assoc]

theorem readFields_at (k bits count i size : Nat) (raw : List UInt8) (hw : SlotWidth bits)
    (hfit : (i + k) * bits ≤ 8 * raw.length) (b : Buffer) (bss : List (List UInt8))
    (rest : List UInt8) (hat : At b (bss.flatten ++ rest))
    (hlen : bss.map List.length = announced bits (leNat raw) i k)
    (hm : ∀ bs ∈ bss, Minimal bs) :
    readFields k ⟨⟨bits, count, i, size⟩, raw⟩ b =
      .ok (bss.map valueOf, ⟨⟨bits, count, i + k, size⟩, raw⟩,
        ⟨b.buf, b.offset + bss.flatten.length⟩) := by
  induction k generalizing i b bss with
  | zero =>
    have : bss = [] := by simpa [announced] using hlen
    subst this
    simp [readFields]
  | succ k ih =>
    rw [announced_succ] at hlen
    cases bss with
    | nil => simp at hlen
    | cons bs bss =>
      simp only [List.map_cons, List.cons.injEq] at hlen
      have hat' : At b (bs ++ (bss.flatten ++ rest)) := by simpa using hat
      have hr := ih (i + 1) (by rw [Nat.add_right_comm]; exact hfit)
        ⟨b.buf, b.offset + bs.length⟩ bss hat'.advance hlen.2
        (fun x hx => hm x (by simp [hx]))
      simp only [readFields,
        pop_slot bits count i size raw hw
          (Nat.le_trans (Nat.mul_le_mul_right _ (by omega)) hfit),
        ok_bind, ← hlen.1, readUintCompact_at hat' (hm bs (by simp)), hr, pure_eq_ok]
      simp [Nat.add_assoc, Nat.add_comm, Nat.add_left_comm]

theorem readFields_inv (k bits count i size : Nat) (raw : List UInt8) (hw : SlotWidth bits)
    (hfit : (i + k) * bits ≤ 8 * raw.length) {b b' : Buffer} {rest₀ : List UInt8}
    {xs : List UInt64} {r : BitArrayReader} (hat : At b rest₀)
    (h : readFields k ⟨⟨bits, count, i, size⟩, raw⟩ b = .ok (xs, r, b')) :
    ∃ (bss : List (List UInt8)) (rest : List UInt8), rest₀ = bss.flatten ++ rest ∧
      bss.map List.length = announced bits (leNat raw) i k ∧ (∀ bs ∈ bss, Minimal bs) ∧
      xs = bss.map valueOf ∧ r = ⟨⟨bits, count, i + k, size⟩, raw⟩ ∧
      b' = ⟨b.buf, b.offset + bss.flatten.length⟩ ∧ At b' rest := by
  induction k generalizing i b b' rest₀ xs r with
  | zero =>
    simp only [readFields] at h
    cases h
    exact ⟨[], rest₀, by simp, by simp [announced], by simp, by simp, by simp, by simp, hat⟩
  | succ k ih =>
    unfold readFields at h
    rw [pop_slot bits count i size raw hw
      (Nat.le_trans (Nat.mul_le_mul_right _ (by omega)) hfit), ok_bind] at h
    obtain ⟨⟨x, b₁⟩, hx, h⟩ := bind_eq_ok h
    obtain ⟨bs, rest₁, hrest₁, hlen, hm, hval, hb₁, hat₁⟩ := readUintCompact_inv hat hx
    obtain ⟨⟨ys, r', b₂⟩, hys, h⟩ := bind_eq_ok h
    obtain ⟨bss, rest, hrest, hlens, hms, hvals, hr, hb₂, hat₂⟩ :=
      ih (i + 1) (by rw [Nat.add_right_comm]; exact hfit) hat₁ hys
    cases h
    refine ⟨bs :: bss, rest, by simp [hrest₁, hrest], ?_, ?_,
      by simp [hval, hvals], ?_, ?_, hat₂⟩
    · rw [announced_succ, List.map_cons, hlen, hlens]
    · intro y hy
      rcases List.mem_cons.mp hy with rfl | hy
      · exact hm
      · exact hms y hy
    · rw [hr, Nat.add_right_comm, Nat.add_assoc]
    · rw [hb₂, hb₁, ← hlen]
      simp [Nat.add_assoc]

/-! ## Parents -/

def parentOf (epoch : UInt32) (tail : List UInt8) : EventID := copyInto 32 (idxBytes epoch ++ tail)

theorem readParents_at (epoch : UInt32) (b : Buffer) (tails : List (List UInt8))
    (rest : List UInt8) (hat : At b (tails.flatten ++ rest))
    (hlen : ∀ t ∈ tails, t.length = 28) :
    readParents epoch tails.length b =
      .ok (tails.map (parentOf epoch), ⟨b.buf, b.offset + tails.flatten.length⟩) := by
  induction tails generalizing b with
  | nil => simp [readParents]
  | cons t tails ih =>
    have hat' : At b (t ++ (tails.flatten ++ rest)) := by simpa using hat
    have ht := hlen t (by simp)
    have hread := read_at hat'
    rw [ht] at hread
    have hr := ih ⟨b.buf, b.offset + 28⟩ (ht ▸ hat'.advance)
      (fun x hx => hlen x (by simp [hx]))
    simp only [List.length_cons, readParents, show 32 - 4 = 28 from rfl, hread, ok_bind, hr,
      pure_eq_ok, parentOf, List.map_cons]
    simp [ht, Nat.add_assoc]

theorem readParents_inv (epoch : UInt32) (k : Nat) {b b' : Buffer} {rest₀ : List UInt8}
    {ps : List EventID} (hat : At b rest₀) (h : readParents epoch k b = .ok (ps, b')) :
    ∃ (tails : List (List UInt8)) (rest : List UInt8), rest₀ = tails.flatten ++ rest ∧
      tails.length = k ∧ (∀ t ∈ tails, t.length = 28) ∧ ps = tails.map (parentOf epoch) ∧
      b' = ⟨b.buf, b.offset + tails.flatten.length⟩ ∧ At b' rest := by
  induction k generalizing b b' rest₀ ps with
  | zero =>
    simp only [readParents] at h
    cases h
    exact ⟨[], rest₀, by simp, rfl, by simp, rfl, by simp, hat⟩
  | succ k ih =>
    unfold readParents at h
    obtain ⟨⟨t, b₁⟩, ht, h⟩ := bind_eq_ok h
    obtain ⟨hlen, hb₁, rest₁, hrest₁, hat₁⟩ := read_inv hat ht
    obtain ⟨⟨qs, b₂⟩, hqs, h⟩ := bind_eq_ok h
    obtain ⟨tails, rest, hrest, hcount, hlens, hps, hb₂, hat₂⟩ := ih hat₁ hqs
    cases h
    refine ⟨t :: tails, rest, by simp [hrest₁, hrest], by simp [hcount], ?_, ?_, ?_, hat₂⟩
    · intro x hx
      rcases List.mem_cons.mp hx with rfl | hx
      · exact hlen
      · exact hlens x hx
    · simp [hps, parentOf]
    · rw [hb₂, hb₁]
      simp [hlen, Nat.add_assoc]

/-! ## Accepted byte strings -/

/-- A byte string cut at the places the decoder reads. -/
structure Parts where
  h0 : UInt8
  h1 : UInt8
  h2 : UInt8
  time : List UInt8
  fields : List (List UInt8)
  tails : List (List UInt8)
  payload : List UInt8
  sig : List UInt8

namespace Parts

def bytes (p : Parts) : List UInt8 :=
  p.h0 :: p.h1 :: p.h2 ::
    (p.time ++ p.fields.flatten ++ p.tails.flatten ++ p.payload ++ p.sig)

/-- The number header 2 spells. -/
def header2 (p : Parts) : Nat := leNat [p.h1, p.h2]

def field (p : Parts) (i : Nat) : UInt32 := (valueOf (p.fields.getD i [])).toUInt32

/-- What the decoder demands of the parts. -/
structure Valid (p : Parts) : Prop where
  version : p.h0.toNat % 16 = 0
  time_length : p.time.length = p.h0.toNat / 16 + 1
  time_minimal : Minimal p.time
  fields_length : p.fields.map List.length = announced 2 p.header2 0 6
  fields_minimal : ∀ bs ∈ p.fields, Minimal bs
  tails_count : p.tails.length = (p.field 5).toNat
  tails_length : ∀ t ∈ p.tails, t.length = 28
  sig_length : p.sig.length = sigSize

def decoded (p : Parts) : Decoded :=
  ⟨0, valueOf p.time, p.field 0, p.field 1, p.field 2, p.field 3, p.field 4,
    slot 2 p.header2 6 ≠ 0, p.tails.map (parentOf (p.field 0)), p.payload, p.sig⟩

theorem six_fields {l : List (List UInt8)} {N : Nat} (h : l.map List.length = announced 2 N 0 6) :
    ∃ f0 f1 f2 f3 f4 f5, l = [f0, f1, f2, f3, f4, f5] := by
  have hlen : l.length = 6 := by simpa [announced] using congrArg List.length h
  match l, hlen with
  | [f0, f1, f2, f3, f4, f5], _ => exact ⟨f0, f1, f2, f3, f4, f5, rfl⟩

theorem Valid.six {p : Parts} (h : p.Valid) :
    ∃ f0 f1 f2 f3 f4 f5, p.fields = [f0, f1, f2, f3, f4, f5] := six_fields h.fields_length

end Parts

/-- The header byte of the version and the length of the time. -/
theorem slot_header3 (h0 : UInt8) :
    slot 4 (leNat [h0]) 0 = h0.toNat % 16 ∧ slot 4 (leNat [h0]) 1 = h0.toNat / 16 := by
  have := h0.toNat_lt
  simp only [slot, leNat]
  omega

theorem sub_headers (h0 h1 h2 : UInt8) (rest spare : List UInt8) :
    (Slice.sub ⟨h0 :: h1 :: h2 :: rest, spare⟩ 0 1 : Go DecodeError _) =
        .ok ⟨[h0], h1 :: h2 :: rest ++ spare⟩ ∧
      (Slice.sub ⟨h0 :: h1 :: h2 :: rest, spare⟩ 1 3 : Go DecodeError _) =
        .ok ⟨[h1, h2], rest ++ spare⟩ ∧
      (Slice.tailFrom ⟨h0 :: h1 :: h2 :: rest, spare⟩ 3 : Go DecodeError _) =
        .ok ⟨rest, spare⟩ := by
  refine ⟨?_, ?_, ?_⟩ <;> simp [Slice.sub, Slice.tailFrom, Slice.backing, Slice.len]

/-- `decode` after the headers, on the bytes behind them. -/
def decodeBody (h0 h1 h2 : UInt8) (raw : Slice UInt8) : Go DecodeError Decoded := do
  let (ver, header3r) ← BitArrayReader.pop ⟨⟨4, 2, 0, 1⟩, [h0]⟩
  if ver ≠ 0 then .error (.error .wrongVersion) else
  let (fields64, _, buf) ← readFields 1 header3r (newBuffer raw)
  let (fields32, header2r, buf) ← readFields 6 ⟨⟨2, 7, 0, 2⟩, [h1, h2]⟩ buf
  match fields64, fields32.map UInt64.toUInt32 with
  | [rawTime], [epoch, seq, frame, creator, lamport, parentsCount] =>
    let (n, _) ← header2r.pop
    let (parents, payload, sig) ← readTail raw epoch parentsCount.toNat buf
    return ⟨ver, rawTime, epoch, seq, frame, creator, lamport, n ≠ 0, parents, payload, sig⟩
  | _, _ => .error (.panic .indexOutOfRange)

theorem decode_cons (h0 h1 h2 : UInt8) (rest spare : List UInt8) :
    decode ⟨h0 :: h1 :: h2 :: rest, spare⟩ = decodeBody h0 h1 h2 ⟨rest, spare⟩ := by
  obtain ⟨hs3, hs2, ht⟩ := sub_headers h0 h1 h2 rest spare
  unfold decode
  rw [EventWire.newBitArray_header3, EventWire.newBitArray_header2, ok_bind, ok_bind]
  simp only [show 1 + 2 = 3 from rfl, hs3, hs2, ht, ok_bind, BitArray.reader, List.length_cons,
    List.length_nil, Nat.zero_add, ne_eq, not_true_eq_false, if_false, Nat.reduceAdd]
  rfl

theorem newBuffer_at (rest spare : List UInt8) :
    At (newBuffer ⟨rest, spare⟩) (rest ++ spare) :=
  ⟨Nat.zero_le _, rfl⟩

theorem readTail_at (raw : Slice UInt8) (epoch : UInt32) (b : Buffer) (tails : List (List UInt8))
    (payload sig rest : List UInt8) (hat : At b (tails.flatten ++ (payload ++ (sig ++ rest))))
    (htails : ∀ t ∈ tails, t.length = 28) (hsig : sig.length = sigSize)
    (hlen : raw.len = b.offset + tails.flatten.length + payload.length + sigSize) :
    readTail raw epoch tails.length b = .ok (tails.map (parentOf epoch), payload, sig) := by
  have hat₁ := hat.advance
  have hpar := readParents_at epoch b tails _ hat htails
  have hlong : ¬ ((raw.len : Int) - (b.offset + tails.flatten.length : Nat) < sigSize) := by omega
  have hcount : raw.len - (b.offset + tails.flatten.length) - sigSize = payload.length := by omega
  have hpay := read_at hat₁
  have hread := read_at hat₁.advance
  rw [hsig] at hread
  simp only [readTail, hpar, ok_bind, if_neg hlong, hcount, hpay, hread, pure_eq_ok]

/-- The length check makes the reads of payload and signature end exactly at
the slice's length. -/
theorem readTail_inv {raw : Slice UInt8} {epoch : UInt32} {k : Nat} {b : Buffer}
    {parents : List EventID} {payload sig rest₀ : List UInt8} (hat : At b rest₀)
    (h : readTail raw epoch k b = .ok (parents, payload, sig)) :
    ∃ (tails : List (List UInt8)) (rest : List UInt8),
      rest₀ = tails.flatten ++ (payload ++ (sig ++ rest)) ∧ tails.length = k ∧
      (∀ t ∈ tails, t.length = 28) ∧ parents = tails.map (parentOf epoch) ∧
      sig.length = sigSize ∧
      raw.len = b.offset + tails.flatten.length + payload.length + sigSize := by
  unfold readTail at h
  obtain ⟨⟨ps, b₁⟩, hps, h⟩ := bind_eq_ok h
  obtain ⟨tails, rest₁, hrest₁, hcount, htails, hparents, hb₁, hat₁⟩ :=
    readParents_inv epoch k hat hps
  simp only at h
  split at h
  · cases h
  · next hlong =>
    obtain ⟨⟨pl, b₂⟩, hpl, h⟩ := bind_eq_ok h
    obtain ⟨hpllen, _, rest₂, hrest₂, hat₂⟩ := read_inv hat₁ hpl
    obtain ⟨⟨sg, b₃⟩, hsg, h⟩ := bind_eq_ok h
    obtain ⟨hsglen, _, rest₃, hrest₃, _⟩ := read_inv hat₂ hsg
    cases h
    refine ⟨tails, rest₃, by rw [hrest₁, hrest₂, hrest₃], hcount, htails,
      hparents, hsglen, ?_⟩
    have hpos := congrArg Buffer.offset hb₁
    simp only at hpos ⊢
    omega

/-- Valid parts are decoded to their value. -/
theorem decode_parts (p : Parts) (hp : p.Valid) (spare : List UInt8) :
    decode ⟨p.bytes, spare⟩ = .ok p.decoded := by
  obtain ⟨f0, f1, f2, f3, f4, f5, hf⟩ := hp.six
  have hw4 : SlotWidth 4 := Or.inr (Or.inr rfl)
  have hw2 : SlotWidth 2 := Or.inr (Or.inl rfl)
  obtain ⟨hver, htime⟩ := slot_header3 p.h0
  obtain ⟨rest, hrest⟩ : ∃ rest,
    rest = p.time ++ p.fields.flatten ++ p.tails.flatten ++ p.payload ++ p.sig := ⟨_, rfl⟩
  have hat : At (newBuffer ⟨rest, spare⟩)
      (p.time ++ (p.fields.flatten ++ (p.tails.flatten ++ (p.payload ++ (p.sig ++ spare))))) := by
    simpa [hrest] using newBuffer_at rest spare
  -- the time, with the length of the second slot of header 3
  have hpop := pop_slot 4 2 0 1 [p.h0] hw4 (by simp)
  rw [hver, hp.version] at hpop
  have h64 := readFields_at 1 4 2 1 1 [p.h0] hw4 (by simp) (newBuffer ⟨rest, spare⟩) [p.time] _
    (by simpa using hat) (by simp [announced, htime, hp.time_length])
      (by simpa using hp.time_minimal)
  -- the fields, with the first six slots of header 2; the seventh is the flag
  have h32 := readFields_at 6 2 7 0 2 [p.h1, p.h2] hw2 (by simp) _ p.fields _
    hat.advance hp.fields_length hp.fields_minimal
  have hroot := pop_slot 2 7 6 2 [p.h1, p.h2] hw2 (by simp)
  have htail := readTail_at ⟨rest, spare⟩ (p.field 0) _ p.tails p.payload p.sig spare
    hat.advance.advance hp.tails_length hp.sig_length
    (by simp [Slice.len, newBuffer, hrest, hp.sig_length]; omega)
  rw [hp.tails_count] at htail
  have hbytes : p.bytes = p.h0 :: p.h1 :: p.h2 :: rest := by rw [hrest]; rfl
  rw [hbytes, decode_cons, decodeBody, hpop, ok_bind]
  simp only [ne_eq, not_true_eq_false, if_false, Nat.zero_add, h64, ok_bind, List.map_cons,
    List.map_nil, List.flatten_cons, List.flatten_nil, List.append_nil]
  rw [h32, ok_bind]
  simp only [hf, List.map_cons, List.map_nil, Nat.zero_add, hroot, ok_bind]
  have hfield : ∀ i, p.field i = (valueOf ([f0, f1, f2, f3, f4, f5].getD i [])).toUInt32 := by
    intro i; rw [← hf]; rfl
  have e0 : (valueOf f0).toUInt32 = p.field 0 := (hfield 0).symm
  have e1 : (valueOf f1).toUInt32 = p.field 1 := (hfield 1).symm
  have e2 : (valueOf f2).toUInt32 = p.field 2 := (hfield 2).symm
  have e3 : (valueOf f3).toUInt32 = p.field 3 := (hfield 3).symm
  have e4 : (valueOf f4).toUInt32 = p.field 4 := (hfield 4).symm
  have e5 : (valueOf f5).toUInt32 = p.field 5 := (hfield 5).symm
  rw [e0, e1, e2, e3, e4, e5]
  rw [← hf, htail]
  rfl

/-! ## The fields before the parents -/

/-- The local variables of `UnmarshalBinary` when it allocates the list of parents.
`raw` is the message behind its headers. -/
structure Fixed where
  ver : Nat
  rawTime : UInt64
  epoch : UInt32
  seq : UInt32
  frame : UInt32
  creator : UInt32
  lamport : UInt32
  parentsCount : UInt32
  isRoot : Bool
  raw : Slice UInt8
  buf : Buffer
  deriving DecidableEq

/-- `UnmarshalBinary` up to the allocation of the list of parents. -/
def readFixed (raw : Slice UInt8) : Go DecodeError Fixed := do
  let header3 ← newBitArray 4 2
  let header2 ← newBitArray 2 7
  let header3r ← header3.reader (← raw.sub 0 header3.size).data
  let header2r ← header2.reader (← raw.sub header3.size (header3.size + header2.size)).data
  let raw ← raw.tailFrom (header3.size + header2.size)
  let buf := newBuffer raw
  -- read version first
  let (ver, header3r) ← header3r.pop
  if ver ≠ 0 then .error (.error .wrongVersion) else
  let (fields64, _, buf) ← readFields 1 header3r buf
  let (fields32, header2r, buf) ← readFields 6 header2r buf
  match fields64, fields32.map UInt64.toUInt32 with
  | [rawTime], [epoch, seq, frame, creator, lamport, parentsCount] =>
    let (n, _) ← header2r.pop
    return ⟨ver, rawTime, epoch, seq, frame, creator, lamport, parentsCount, n ≠ 0, raw, buf⟩
  | _, _ => .error (.panic .indexOutOfRange)

/-- The rest of it, up to the first setter. -/
def Fixed.readRest (x : Fixed) : Go DecodeError Decoded := do
  let (parents, payload, sig) ← readTail x.raw x.epoch x.parentsCount.toNat x.buf
  return ⟨x.ver, x.rawTime, x.epoch, x.seq, x.frame, x.creator, x.lamport, x.isRoot, parents,
    payload, sig⟩

theorem decode_eq_readFixed (raw : Slice UInt8) : decode raw =
    readFixed raw >>= Fixed.readRest := by
  unfold decode readFixed
  simp only [bind_assoc]
  -- the same calls up to the version, which ends both or neither
  iterate 8 refine bind_congr fun _ => ?_
  split
  · rfl
  · rw [bind_assoc]
    refine bind_congr fun y64 => ?_
    rw [bind_assoc]
    refine bind_congr fun y32 => ?_
    generalize y64.1 = fields64
    generalize y32.1.map UInt64.toUInt32 = fields32
    -- one time and six fields; any other number of them is a panic on both sides
    rcases fields64 with _ | ⟨rawTime, _ | ⟨_, _⟩⟩
    · rfl
    · rcases fields32 with
        _ | ⟨_, _ | ⟨_, _ | ⟨_, _ | ⟨_, _ | ⟨_, _ | ⟨_, _ | ⟨_, _⟩⟩⟩⟩⟩⟩⟩
      any_goals rfl
      rw [bind_assoc]
      rfl
    · rfl

/-- With fewer than three bytes nothing is read, whatever lies behind them. -/
theorem readFixed_ok_cons {raw : Slice UInt8} {x : Fixed} (h : readFixed raw = .ok x) :
    ∃ h0 h1 h2 rest, raw = ⟨h0 :: h1 :: h2 :: rest, raw.spare⟩ := by
  unfold readFixed at h
  rw [EventWire.newBitArray_header3, EventWire.newBitArray_header2, ok_bind, ok_bind] at h
  obtain ⟨_, _, h⟩ := bind_eq_ok h
  obtain ⟨_, _, h⟩ := bind_eq_ok h
  obtain ⟨_, _, h⟩ := bind_eq_ok h
  obtain ⟨_, _, h⟩ := bind_eq_ok h
  obtain ⟨_, ht, _⟩ := bind_eq_ok h
  obtain ⟨hlen, _⟩ := Slice.tailFrom_ok ht
  cases raw with
  | mk data spare =>
    match data, hlen with
    | h0 :: h1 :: h2 :: rest, _ => exact ⟨h0, h1, h2, rest, rfl⟩

/-- The fields before the parents as `p` spells them, with `unread` behind them. -/
structure FixedAt (p : Parts) (raw : Slice UInt8) (unread : List UInt8) (x : Fixed) : Prop where
  headers : ∃ rest, raw = ⟨p.h0 :: p.h1 :: p.h2 :: rest, raw.spare⟩ ∧
    x.raw = ⟨rest, raw.spare⟩ ∧
    rest ++ raw.spare = p.time ++ (p.fields.flatten ++ unread)
  version : p.h0.toNat % 16 = 0
  time_length : p.time.length = p.h0.toNat / 16 + 1
  time_minimal : Minimal p.time
  fields_length : p.fields.map List.length = announced 2 p.header2 0 6
  fields_minimal : ∀ bs ∈ p.fields, Minimal bs
  buf : x.buf = ⟨x.raw, p.time.length + p.fields.flatten.length⟩
  unread_at : At x.buf unread
  values : x = ⟨0, valueOf p.time, p.field 0, p.field 1, p.field 2, p.field 3,
    p.field 4, p.field 5,
    slot 2 p.header2 6 ≠ 0, x.raw, x.buf⟩

theorem readFixed_inv {raw : Slice UInt8} {x : Fixed} (h : readFixed raw = .ok x) :
    ∃ h0 h1 h2 time fields unread,
      ∀ tails payload sig, FixedAt ⟨h0, h1, h2, time, fields, tails, payload,
        sig⟩ raw unread x := by
  have hw4 : SlotWidth 4 := Or.inr (Or.inr rfl)
  have hw2 : SlotWidth 2 := Or.inr (Or.inl rfl)
  obtain ⟨h0, h1, h2, rest, hraw⟩ := readFixed_ok_cons h
  obtain ⟨hver, htime⟩ := slot_header3 h0
  obtain ⟨hs3, hs2, ht⟩ := sub_headers h0 h1 h2 rest raw.spare
  rw [hraw] at h
  unfold readFixed at h
  rw [EventWire.newBitArray_header3, EventWire.newBitArray_header2, ok_bind, ok_bind] at h
  simp only [show 1 + 2 = 3 from rfl, hs3, hs2, ht, ok_bind, BitArray.reader, List.length_cons,
    List.length_nil, Nat.zero_add, ne_eq, not_true_eq_false, if_false, Nat.reduceAdd] at h
  rw [pop_slot 4 2 0 1 [h0] hw4 (by simp), ok_bind] at h
  simp only at h
  split at h
  · cases h
  next hver0 =>
  obtain ⟨⟨xs, r₁, b₁⟩, hxs, h⟩ := bind_eq_ok h
  obtain ⟨bss, rest₁, hrest₁, hlens, hmins, hvals, _, hb₁, hat₁⟩ :=
    readFields_inv 1 4 2 1 1 [h0] hw4 (by simp) (newBuffer_at rest raw.spare) hxs
  obtain ⟨⟨ys, r₂, b₂⟩, hys, h⟩ := bind_eq_ok h
  obtain ⟨fields, rest₂, hrest₂, hflens, hfmins, hfvals, hr₂, hb₂, hat₂⟩ :=
    readFields_inv 6 2 7 0 2 [h1, h2] hw2 (by simp) hat₁ hys
  obtain ⟨time, rfl⟩ : ∃ t, bss = [t] := by
    have : bss.length = 1 := by simpa [announced] using congrArg List.length hlens
    exact List.length_eq_one_iff.mp this
  obtain ⟨f0, f1, f2, f3, f4, f5, hf⟩ := Parts.six_fields hflens
  subst hf hvals hfvals hr₂
  simp only [List.map_cons, List.map_nil] at h
  rw [pop_slot 2 7 (0 + 6) 2 [h1, h2] hw2 (by simp), ok_bind] at h
  cases h
  rw [hver, not_not] at hver0
  refine ⟨h0, h1, h2, time, _, rest₂, fun tails payload sig =>
    ⟨⟨rest, hraw, rfl, ?_⟩, hver0, ?_,
    hmins time (by simp), hflens, hfmins, ?_, hat₂, ?_⟩⟩
  · rw [hrest₁, hrest₂]
    simp
  · simpa [announced, htime] using hlens
  · rw [hb₂, hb₁]
    simp [newBuffer]
  · rw [hver, hver0]
    rfl

/-- Whatever is decoded splits into valid parts. -/
theorem decode_inv {raw : Slice UInt8} {d : Decoded} (h : decode raw = .ok d) :
    ∃ p : Parts, p.Valid ∧ raw.data = p.bytes ∧ d = p.decoded := by
  rw [decode_eq_readFixed] at h
  obtain ⟨x, hx, h⟩ := bind_eq_ok h
  obtain ⟨h0, h1, h2, time, fields, unread, hfixed⟩ := readFixed_inv hx
  unfold Fixed.readRest at h
  obtain ⟨⟨parents, payload, sig⟩, ht, h⟩ := bind_eq_ok h
  obtain ⟨tails, rest₃, hrest₃, hcount, htails, hparents, hsig, hlen⟩ :=
    readTail_inv (hfixed [] payload sig).unread_at ht
  have hp := hfixed tails payload sig
  obtain ⟨rest, hraw, hxraw, hsplit⟩ := hp.headers
  have hvalues := hp.values
  -- the consumed bytes are as many as the slice has, so they are the slice
  have hdata : rest = time ++ fields.flatten ++ tails.flatten ++ payload ++ sig := by
    have hall : rest ++ raw.spare =
        (time ++ fields.flatten ++ tails.flatten ++ payload ++ sig) ++ rest₃ := by
      rw [hsplit, hrest₃]
      simp
    refine (List.append_inj hall ?_).1
    rw [hp.buf, hxraw] at hlen
    simp only [Slice.len] at hlen
    simp only [hlen, List.length_append, hsig]
  refine ⟨⟨h0, h1, h2, time, fields, tails, payload, sig⟩, ⟨hp.version, hp.time_length,
    hp.time_minimal, hp.fields_length, hp.fields_minimal, ?_, htails, hsig⟩, ?_, ?_⟩
  · rw [hcount, hvalues]
  · rw [hraw, hdata]
    rfl
  · cases h
    rw [hparents, hvalues]
    rfl

/-- The accepted byte strings and their values. -/
theorem decode_iff (raw : Slice UInt8) (d : Decoded) :
    decode raw = .ok d ↔ ∃ p : Parts, p.Valid ∧ raw.data = p.bytes ∧ d = p.decoded := by
  constructor
  · exact decode_inv
  · rintro ⟨p, hp, hdata, rfl⟩
    have := decode_parts p hp raw.spare
    rw [← hdata] at this
    exact this

end MiniOpera.EventDecode
