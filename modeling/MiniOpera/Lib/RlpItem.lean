import MiniOpera.Lib.LittleEndian

/-! RLP items in a stream: `split` takes the first item off a byte string, and
says whether it is a string or a list. Payloads are below `2 ^ 64` bytes, as in
RLP. `encode` is total: it uses the header `0xff`, which starts no string in RLP, for
the byte strings of `2 ^ 64` bytes and more. Numbers are big-endian strings without
leading zeros. -/

namespace MiniOpera.RlpItem
open LittleEndian

inductive Kind
  | string
  | list
  deriving DecidableEq

/-- The header of a payload of `n` bytes; `base` is `0x80` for strings, `0xc0` for lists. -/
def header (base n : Nat) : List UInt8 :=
  if n ≤ 55 then [UInt8.ofNat (base + n)]
  else UInt8.ofNat (base + 55 + (compact 8 n).length) :: (compact 8 n).reverse

def encodeString (b : List UInt8) : List UInt8 :=
  if b.length = 1 ∧ (b.getD 0 0).toNat < 0x80 then b else header 0x80 b.length ++ b

def encodeList (payload : List UInt8) : List UInt8 := header 0xc0 payload.length ++ payload

/-- The payload behind a header whose first byte is `x`, and what follows it. -/
def sized (base x : Nat) (rest : List UInt8) : Option (List UInt8 × List UInt8) :=
  if x ≤ base + 55 then
    if x - base ≤ rest.length then some (rest.take (x - base), rest.drop (x - base)) else none
  else
    let k := x - base - 55
    let size := leNat (rest.take k).reverse
    if k ≤ rest.length ∧ Minimal (rest.take k).reverse ∧ 55 < size ∧
      size ≤ (rest.drop k).length then
      some ((rest.drop k).take size, (rest.drop k).drop size)
    else none

def split : List UInt8 → Option (Kind × List UInt8 × List UInt8)
  | [] => none
  | x :: rest =>
    if x.toNat < 0x80 then some (.string, [x], rest)
    else if x.toNat < 0xc0 then
      match sized 0x80 x.toNat rest with
      | none => none
      | some (b, rest) =>
        -- a small byte is its own encoding
        if b.length = 1 ∧ (b.getD 0 0).toNat < 0x80 then none else some (.string, b, rest)
    else
      match sized 0xc0 x.toNat rest with
      | none => none
      | some (b, rest) => some (.list, b, rest)

/-- A header is read back with the payload it announces. -/
theorem sized_header (base : Nat) (hbase : base + 63 < 256) (payload rest : List UInt8)
    (h : payload.length < 2 ^ 64) :
    ∃ x tail, header base payload.length = x :: tail ∧ base ≤ x.toNat ∧
      x.toNat ≤ base + 63 ∧
      sized base x.toNat (tail ++ payload ++ rest) = some (payload, rest) := by
  unfold header
  split
  · next hshort =>
    have hx : (UInt8.ofNat (base + payload.length)).toNat = base + payload.length := by
      rw [UInt8.toNat_ofNat']
      omega
    refine ⟨_, [], rfl, by omega, by omega, ?_⟩
    rw [hx, sized, if_pos (by omega), Nat.add_sub_cancel_left, List.nil_append, if_pos (by simp),
      List.take_left, List.drop_left]
  · next hlong =>
    have hle := compact_length_le 8 payload.length
    have hpos := compact_length_pos 8 payload.length (by decide)
    have hx : (UInt8.ofNat (base + 55 + (compact 8 payload.length).length)).toNat =
        base + 55 + (compact 8 payload.length).length := by
      rw [UInt8.toNat_ofNat']
      omega
    refine ⟨_, _, rfl, by omega, by omega, ?_⟩
    have hk : base + 55 + (compact 8 payload.length).length - base - 55 =
        (compact 8 payload.length).length := by omega
    have ht : ((compact 8 payload.length).reverse ++ payload ++ rest).take
        (compact 8 payload.length).length = (compact 8 payload.length).reverse := by
      rw [List.append_assoc]
      exact List.take_left' (by simp)
    have hd : ((compact 8 payload.length).reverse ++ payload ++ rest).drop
        (compact 8 payload.length).length = payload ++ rest := by
      rw [List.append_assoc]
      exact List.drop_left' (by simp)
    rw [hx, sized, if_neg (by omega)]
    simp only [hk, ht, hd, List.reverse_reverse, leNat_compact 8 payload.length h,
      compact_minimal 8 payload.length h, List.take_left, List.drop_left, true_and]
    rw [if_pos]
    refine ⟨?_, by omega, by simp⟩
    simp only [List.length_append, List.length_reverse]
    omega

theorem split_encodeString (b rest : List UInt8) (h : b.length < 2 ^ 64) :
    split (encodeString b ++ rest) = some (.string, b, rest) := by
  unfold encodeString
  split
  · next hsmall =>
    obtain ⟨x, rfl⟩ := List.length_eq_one_iff.mp hsmall.1
    have hx : x.toNat < 0x80 := hsmall.2
    simp only [List.cons_append, List.nil_append, split, hx, if_true]
  · next hsmall =>
    obtain ⟨x, tail, heq, hlo, hhi, hsized⟩ := sized_header 0x80 (by decide) b rest h
    rw [heq, List.cons_append, List.cons_append, split, if_neg (by omega),
      if_pos (by omega), hsized]
    exact if_neg hsmall

theorem split_encodeList (payload rest : List UInt8) (h : payload.length < 2 ^ 64) :
    split (encodeList payload ++ rest) = some (.list, payload, rest) := by
  obtain ⟨x, tail, heq, hlo, hhi, hsized⟩ := sized_header 0xc0 (by decide) payload rest h
  rw [encodeList, heq, List.cons_append, List.cons_append, split, if_neg (by omega),
    if_neg (by omega), hsized]

/-- Strings one after the other, as long as `fuel` lasts. -/
def splitStrings : Nat → List UInt8 → Option (List (List UInt8))
  | _, [] => some []
  | 0, _ :: _ => none
  | fuel + 1, x :: rest =>
    match split (x :: rest) with
    | some (.string, b, rest) => (splitStrings fuel rest).map (b :: ·)
    | _ => none

theorem encodeString_ne_nil (b : List UInt8) : encodeString b ≠ [] := by
  unfold encodeString header
  split
  · next h => exact fun hb => by simp [hb] at h
  · split <;> simp

theorem splitStrings_encode (bs : List (List UInt8)) (h : ∀ b ∈ bs, b.length < 2 ^ 64)
    (fuel : Nat)
    (hfuel : bs.length ≤ fuel) : splitStrings fuel (bs.flatMap encodeString) = some bs := by
  induction bs generalizing fuel with
  | nil => cases fuel <;> rfl
  | cons b bs ih =>
    obtain ⟨f, rfl⟩ : ∃ f, fuel = f + 1 := ⟨fuel - 1, by simp at hfuel; omega⟩
    have hrest := ih (fun x hx => h x (List.mem_cons_of_mem _ hx)) f (by simpa using hfuel)
    have hsplit := split_encodeString b (bs.flatMap encodeString) (h b List.mem_cons_self)
    rw [List.flatMap_cons]
    cases henc : encodeString b ++ bs.flatMap encodeString with
    | nil => exact absurd (List.append_eq_nil_iff.mp henc).1 (encodeString_ne_nil b)
    | cons x tail =>
      rw [henc] at hsplit
      rw [splitStrings, hsplit]
      simp only [hrest, Option.map_some]

/-! ## One byte string -/

def encode (b : List UInt8) : List UInt8 :=
  if b.length < 2 ^ 64 then encodeString b else 0xff :: b

def decode : List UInt8 → Option (List UInt8)
  | [] => none
  | x :: rest =>
    if x = 0xff then some rest
    else match split (x :: rest) with
      | some (.string, b, []) => some b
      | _ => none

theorem decode_encode (b : List UInt8) : decode (encode b) = some b := by
  unfold encode
  split
  · next hlen =>
    have hsplit := split_encodeString b [] hlen
    rw [List.append_nil] at hsplit
    cases henc : encodeString b with
    | nil => exact absurd henc (encodeString_ne_nil b)
    | cons x rest =>
      rw [henc] at hsplit
      by_cases hx : x = 0xff
      · -- `split` takes it for the header of a list
        subst hx
        rw [RlpItem.split, if_neg (by decide), if_neg (by decide)] at hsplit
        split at hsplit <;> cases hsplit
      · simp only [decode, if_neg hx, hsplit]
  · rfl

/-! ## Lengths -/

theorem header_length (base n : Nat) : 1 ≤ (header base n).length ∧
    (header base n).length ≤ 9 := by
  have hlen := compact_length_le 8 n
  unfold header
  split
  · simp
  · simp only [List.length_cons, List.length_reverse]
    omega

theorem encodeString_length (b : List UInt8) :
    b.length ≤ (encodeString b).length ∧ (encodeString b).length ≤ b.length + 9 := by
  have hheader := header_length 0x80 b.length
  unfold encodeString
  split
  · omega
  · rw [List.length_append]
    omega

theorem encodeList_length_le (payload : List UInt8) :
    (encodeList payload).length ≤ payload.length + 9 := by
  have hheader := (header_length 0xc0 payload.length).2
  rw [encodeList, List.length_append]
  omega

theorem flatMap_encodeString_length (bs : List (List UInt8)) :
    bs.length ≤ (bs.flatMap encodeString).length := by
  induction bs with
  | nil => exact Nat.le_refl 0
  | cons b bs ih =>
    have hpos := List.length_pos_iff.mpr (encodeString_ne_nil b)
    simp only [List.flatMap_cons, List.length_append, List.length_cons]
    omega

/-! ## Numbers -/

def encodeNat (n : Nat) : List UInt8 := encodeString (if n = 0 then [] else (compact 8 n).reverse)

def natOf (b : List UInt8) : Nat := leNat b.reverse

/-- A number of at most eight bytes, and what follows it. -/
def decodeNat (bs : List UInt8) : Option (Nat × List UInt8) :=
  match split bs with
  | some (.string, b, rest) =>
    if b.length ≤ 8 ∧ (b = [] ∨ (Minimal b.reverse ∧ natOf b ≠ 0)) then some (natOf b, rest)
    else none
  | _ => none

theorem decodeNat_encodeNat (n : Nat) (h : n < 2 ^ 64) (rest : List UInt8) :
    decodeNat (encodeNat n ++ rest) = some (n, rest) := by
  have hlen := compact_length_le 8 n
  unfold encodeNat
  split
  · next hzero =>
    rw [decodeNat, split_encodeString [] rest (by decide), hzero]
    rfl
  · next hne =>
    have hval : natOf (compact 8 n).reverse = n := by
      rw [natOf, List.reverse_reverse, leNat_compact 8 n h]
    rw [decodeNat, split_encodeString _ rest (by rw [List.length_reverse]; omega)]
    dsimp only
    rw [if_pos, hval]
    refine ⟨by rw [List.length_reverse]; exact hlen, .inr ⟨?_, by rw [hval]; exact hne⟩⟩
    rw [List.reverse_reverse]
    exact compact_minimal 8 n h

end MiniOpera.RlpItem
