import MiniOpera.Peers

/-!
# How many peers get the event itself

`decideBroadcastAggressiveness` is meant to give fewer recipients to larger and to
older events. `aggressiveness_antitone_iff`: up to a given size and age it does so
exactly when their cost fits an `int64`, or the configuration alone decides. An
older event has a negative cost, and goes to every peer.
-/

namespace MiniOpera.BroadcastCost
open RandSelect Peers

theorem wrap64_over {a : Int} (h1 : 2 ^ 63 ≤ a) (h2 : a < 2 ^ 64) : wrap64 a = a - 2 ^ 64 := by
  have hmod : a % (2 ^ 64 : Nat) = a := Int.emod_eq_of_lt (by omega) (by omega)
  unfold wrap64 Int.bmod
  dsimp only
  rw [hmod, if_neg (by omega)]
  rfl

/-! ## The trade-off of the configuration -/

/-- The configuration alone decides: the throughput does not matter, the two
importances have opposite signs, or one of them is out of all proportion. -/
def EdgeCase (cfg : ProtocolConfig) : Prop :=
  let latency := wrap64 (cfg.latencyImportance * percents)
  let throughput := cfg.throughputImportance
  throughput = 0 ∨ (latency < 0 ∧ 0 < throughput) ∨ (0 < latency ∧ throughput < 0) ∨
    latency.natAbs < throughput.natAbs ∨ 1000000 * 100 * throughput.natAbs ≤ latency.natAbs

instance (cfg : ProtocolConfig) : Decidable (EdgeCase cfg) := by
  unfold EdgeCase
  infer_instance

/-- Only the quotient `2^63` wraps, to a negative number. -/
theorem wrap64_between_iff {q : Int} (h1 : -2 ^ 63 ≤ q) (h2 : q ≤ 2 ^ 63) :
    (0 < wrap64 q ∧ wrap64 q < maxPercents) ↔ (0 < q ∧ q < maxPercents) := by
  by_cases hq : q = 2 ^ 63
  · subst hq
    decide
  · rw [wrap64_eq h1 (by omega)]

theorem tdiv_between_iff {l t : Int} (ht : t ≠ 0) :
    (0 < l.tdiv t ∧ l.tdiv t < maxPercents) ↔
      ¬(l < 0 ∧ 0 < t) ∧ ¬(0 < l ∧ t < 0) ∧ t.natAbs ≤ l.natAbs ∧
        l.natAbs < 1000000 * 100 * t.natAbs := by
  have hpos : 0 < t.natAbs := Int.natAbs_pos.mpr ht
  have hlow : 1 ≤ l.natAbs / t.natAbs ↔ t.natAbs ≤ l.natAbs := by
    rw [Nat.le_div_iff_mul_le hpos, Nat.one_mul]
  have hhigh : l.natAbs / t.natAbs < 1000000 * 100 ↔ l.natAbs < 1000000 * 100 * t.natAbs :=
    Nat.div_lt_iff_lt_mul hpos
  -- the quotient of the absolute values, with the sign of the product
  have hquot : ((l.natAbs : Int).tdiv t.natAbs) = (l.natAbs / t.natAbs : Nat) :=
    (Int.ofNat_tdiv _ _).symm
  unfold maxPercents percents
  generalize l.natAbs / t.natAbs = q at hlow hhigh hquot
  rcases Int.natAbs_eq l with hl | hl <;> rcases Int.natAbs_eq t with htt | htt
  · rw [hl, htt, hquot]
    omega
  · rw [hl, htt, Int.tdiv_neg, hquot]
    omega
  · rw [hl, htt, Int.neg_tdiv, hquot]
    omega
  · rw [hl, htt, Int.neg_tdiv_neg, hquot]
    omega

theorem not_edgeCase_iff (cfg : ProtocolConfig) :
    ¬EdgeCase cfg ↔ 0 < latencyVsThroughputTradeoff cfg ∧
      latencyVsThroughputTradeoff cfg < maxPercents := by
  by_cases ht : cfg.throughputImportance = 0
  · simp [EdgeCase, latencyVsThroughputTradeoff, ht]
  · have hlow := Int.le_bmod (x := cfg.latencyImportance * percents) (m := 2 ^ 64) (by decide)
    have hhigh := Int.bmod_lt (x := cfg.latencyImportance * percents) (m := 2 ^ 64) (by decide)
    have hquot := Int.natAbs_tdiv_le_natAbs (wrap64 (cfg.latencyImportance * percents))
      cfg.throughputImportance
    rw [latencyVsThroughputTradeoff, if_pos ht]
    unfold wrap64 at hquot
    rw [wrap64_between_iff (by unfold wrap64; omega) (by unfold wrap64; omega),
      tdiv_between_iff ht]
    simp only [EdgeCase, ht, false_or, not_or, Nat.not_lt, Nat.not_le]

/-! ## Costs and targets -/

section Cost

variable {size passed : Int} (hs : 0 ≤ size) (hmax : size ≤ protocolMaxMsgSize)
  (hp : 0 ≤ passed)
include hs hmax hp

theorem broadcastCost_eq (h : passed + size * 500000 < 2 ^ 63) :
    broadcastCost size passed = passed + size * 500000 := by
  unfold protocolMaxMsgSize at hmax
  have hbyte : byteCost = 500000 := by decide
  rw [broadcastCost, hbyte, wrap64_eq (a := size * 500000) (by omega) (by omega),
    wrap64_eq (by omega) h]

/-- The cost of an event that is too old wraps around. -/
theorem broadcastCost_neg (hlt : passed < 2 ^ 63) (h : 2 ^ 63 ≤ passed + size * 500000) :
    broadcastCost size passed < 0 := by
  unfold protocolMaxMsgSize at hmax
  have hbyte : byteCost = 500000 := by decide
  rw [broadcastCost, hbyte, wrap64_eq (a := size * 500000) (by omega) (by omega),
    wrap64_over h (by omega)]
  omega

end Cost

section Targets

variable {t : Int} (h0 : 0 < t) (h1 : t < maxPercents)
include h0 h1

theorem broadcastAllCostTarget_eq : broadcastAllCostTarget t = t * 7000000 := by
  have hmax : t < 100000000 := h1
  have hprod : t * (700 * millisecond) = t * 7000000 * percents := by
    unfold millisecond percents
    omega
  have hdiv : (t * 7000000 * percents).tdiv percents = t * 7000000 :=
    Int.mul_tdiv_cancel _ (by decide)
  have hfits : t * 7000000 * percents < 2 ^ 63 := by
    unfold percents
    omega
  rw [broadcastAllCostTarget, hprod, wrap64_eq (a := t * 7000000 * percents)
    (by unfold percents; omega) hfits, hdiv, wrap64_eq (by omega) (by omega)]

theorem broadcastSqrtCostTarget_eq : broadcastSqrtCostTarget t = t * 140000000 := by
  have hmax : t < 100000000 := h1
  rw [broadcastSqrtCostTarget, broadcastAllCostTarget_eq h0 h1, wrap64_eq (by omega) (by omega)]
  omega

end Targets

/-! ## The recipients -/

theorem sqrtRecipients_pos (n : Int) : 4 ≤ sqrtRecipients n := by
  unfold sqrtRecipients
  dsimp only
  split <;> omega

/-- Whatever the configuration and the cost, a part of the peers is chosen. -/
theorem recipients_bounds (cfg : ProtocolConfig) (size passed : Int) {n : Int} (hn : 0 ≤ n) :
    0 ≤ decideBroadcastAggressiveness cfg size passed n ∧
      decideBroadcastAggressiveness cfg size passed n ≤ n := by
  have hsqrt := sqrtRecipients_pos n
  unfold decideBroadcastAggressiveness
  dsimp only
  split <;> split_ifs at * <;> omega

theorem recipients_edgeCase {cfg : ProtocolConfig} (h : EdgeCase cfg) (s1 p1 s2 p2 n : Int) :
    decideBroadcastAggressiveness cfg s2 p2 n = decideBroadcastAggressiveness cfg s1 p1 n := by
  have hedge : ¬(0 < latencyVsThroughputTradeoff cfg ∧
      latencyVsThroughputTradeoff cfg < maxPercents) := by
    rw [← not_edgeCase_iff]
    exact not_not_intro h
  unfold decideBroadcastAggressiveness
  dsimp only
  by_cases hmax : latencyVsThroughputTradeoff cfg ≥ maxPercents
  · simp only [if_pos hmax]
  · have hzero : latencyVsThroughputTradeoff cfg ≤ 0 := by omega
    simp only [if_neg hmax, if_pos hzero]

/-- The recipients at a given cost, for a trade-off `t` that is no edge case. -/
def recipientsAt (t cost passed n : Int) : Int :=
  if cost ≤ t * 7000000 then n
  else if cost ≤ t * 140000000 ∨ passed = 0 then
    if sqrtRecipients n > n then n else sqrtRecipients n
  else 0

theorem recipients_eq {cfg : ProtocolConfig} (h : ¬EdgeCase cfg) (size passed : Int) {n : Int}
    (hn : 0 ≤ n) :
    decideBroadcastAggressiveness cfg size passed n =
      recipientsAt (latencyVsThroughputTradeoff cfg) (broadcastCost size passed) passed n := by
  obtain ⟨h0, h1⟩ := (not_edgeCase_iff cfg).mp h
  unfold decideBroadcastAggressiveness recipientsAt
  simp only [broadcastAllCostTarget_eq h0 h1, broadcastSqrtCostTarget_eq h0 h1,
    if_neg (Int.not_le.mpr h1), if_neg (Int.not_le.mpr h0), ge_iff_le]
  split_ifs <;> omega

theorem recipientsAt_antitone {t c1 c2 p1 p2 n : Int} (hc : c1 ≤ c2)
    (hp1 : 0 ≤ p1) (hp : p1 ≤ p2)
    (hn : 0 ≤ n) : recipientsAt t c2 p2 n ≤ recipientsAt t c1 p1 n := by
  have hsqrt := sqrtRecipients_pos n
  unfold recipientsAt
  split_ifs <;> omega

/-- Up to a size and an age, larger and older events go to fewer peers. -/
def AntitoneUpTo (cfg : ProtocolConfig) (size passed n : Int) : Prop :=
  ∀ s p, 0 ≤ s → s ≤ size → 0 ≤ p → p ≤ passed →
    decideBroadcastAggressiveness cfg size passed n ≤ decideBroadcastAggressiveness cfg s p n ∧
    (0 ≤ decideBroadcastAggressiveness cfg size passed n ∧
      decideBroadcastAggressiveness cfg size passed n ≤ n) ∧
    0 ≤ decideBroadcastAggressiveness cfg s p n ∧ decideBroadcastAggressiveness cfg s p n ≤ n

section Wrapped

variable {cfg : ProtocolConfig} {size passed n : Int} (h : ¬EdgeCase cfg) (hs : 0 ≤ size)
  (hmax : size ≤ protocolMaxMsgSize) (hp : 0 ≤ passed) (hlt : passed < 2 ^ 63)
  (hover : 2 ^ 63 ≤ passed + size * 500000) (hn : 0 ≤ n)
include h hs hmax hp hlt hover hn

/-- An event whose cost wraps goes to every peer. -/
theorem recipients_over : decideBroadcastAggressiveness cfg size passed n = n := by
  obtain ⟨h0, -⟩ := (not_edgeCase_iff cfg).mp h
  have hneg := broadcastCost_neg hs hmax hp hlt hover
  rw [recipients_eq h size passed hn, recipientsAt, if_pos (by omega)]

/-- An empty event of the same age goes to none. -/
theorem recipients_over_empty : decideBroadcastAggressiveness cfg 0 passed n = 0 := by
  obtain ⟨h0, h1⟩ := (not_edgeCase_iff cfg).mp h
  unfold maxPercents percents at h1
  unfold protocolMaxMsgSize at hmax
  have hcost : broadcastCost 0 passed = passed := by
    rw [broadcastCost_eq (Int.le_refl 0) (by decide) hp (by omega)]
    omega
  rw [recipients_eq h 0 passed hn, hcost, recipientsAt, if_neg (by omega), if_neg (by omega)]

end Wrapped

theorem aggressiveness_antitone_iff (cfg : ProtocolConfig) {size passed n : Int} (hn : 0 ≤ n)
    (hs : 0 ≤ size) (hmax : size ≤ protocolMaxMsgSize) (hp : 0 ≤ passed)
    (hlt : passed < 2 ^ 63) :
    AntitoneUpTo cfg size passed n ↔
      EdgeCase cfg ∨ n = 0 ∨ passed + size * 500000 < 2 ^ 63 := by
  constructor
  · intro hall
    by_contra hcon
    obtain ⟨hedge, hne, hover⟩ : ¬EdgeCase cfg ∧ n ≠ 0 ∧
        2 ^ 63 ≤ passed + size * 500000 := by
      simpa only [not_or, Int.not_lt] using hcon
    have hle := (hall 0 passed (Int.le_refl 0) hs hp (Int.le_refl _)).1
    rw [recipients_over hedge hs hmax hp hlt hover hn,
      recipients_over_empty hedge hs hmax hp hlt hover hn] at hle
    omega
  · intro hcond s p h1 h2 h3 h4
    have hlarge := recipients_bounds cfg size passed hn
    have hsmall := recipients_bounds cfg s p hn
    refine ⟨?_, hlarge, hsmall⟩
    by_cases hedge : EdgeCase cfg
    · exact (recipients_edgeCase hedge s p size passed n).le
    · by_cases hzero : n = 0
      · omega
      · have hfits : passed + size * 500000 < 2 ^ 63 := by
          rcases hcond with h | h | h
          · exact absurd h hedge
          · exact absurd h hzero
          · exact h
        have hcost := broadcastCost_eq hs hmax hp hfits
        have hcost' : broadcastCost s p = p + s * 500000 :=
          broadcastCost_eq h1 (by omega) h3 (by omega)
        rw [recipients_eq hedge size passed hn, recipients_eq hedge s p hn]
        exact recipientsAt_antitone (by omega) h3 h4 hn

/-- `DefaultConfig`: the two importances are 60 and 40. -/
def defaultProtocol : ProtocolConfig := ⟨60, 40⟩

theorem aggressiveness_antitone_iff_default :
    AntitoneUpTo defaultProtocol protocolMaxMsgSize (3600 * 1000 * millisecond) 50 :=
  (aggressiveness_antitone_iff defaultProtocol (by decide) (by decide) (by decide) (by decide)
    (by decide)).mpr (by decide)

/-- An event whose creation time has the top bit set is the oldest possible one: all
ten peers get it, and an event of the same size created 100 seconds ago goes to none. -/
theorem ancient_event_sent_to_all :
    passedSinceEvent 1600000000000000000 9223372036854775808 = 2 ^ 63 - 1 ∧
    decideBroadcastAggressiveness defaultProtocol 100 (2 ^ 63 - 1) 10 = 10 ∧
    decideBroadcastAggressiveness defaultProtocol 100 (100 * 1000 * millisecond) 10 = 0 := by
  decide +kernel

end MiniOpera.BroadcastCost
