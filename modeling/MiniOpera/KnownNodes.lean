import MiniOpera.PoolEntries

/-!
# Known nodes and a restart

`saveNodes` drains the queue of the known entries into the database, `loadNodes` of
the next run fills a new queue from it. An entry is stored as a `poolEntryEnc`, with
its key as 64 bytes and its statistics as bit patterns (`NodeCodec`).

`known_nodes_survive`: in every run the queue can be saved, and what is loaded
afterwards is the same list of nodes, in the same order and with the same data.
-/

namespace MiniOpera.KnownNodes
open GoRuntime RandSelect EntryQueue Pool ServerPool PoolRoster Roster PoolRefinement
  PoolRuns PoolEntries

/-- `poolEntryEnc`; of a statistic the bits of the sum and of the weight. -/
structure PoolEntryEnc where
  pubkey : List UInt8
  ip : List UInt8
  port : UInt16
  fails : UInt64
  cStat : UInt64 × UInt64
  dStat : UInt64 × UInt64
  rStat : UInt64 × UInt64
  tStat : UInt64 × UInt64

/-- Keys, floating-point numbers and RLP; `V` is what the database stores. -/
structure NodeCodec (K F V : Type) where
  fromECDSAPub : K → List UInt8
  unmarshalPubkey : List UInt8 → Option K
  float64bits : F → UInt64
  float64frombits : UInt64 → F
  encode : List PoolEntryEnc → V
  decode : V → Option (List PoolEntryEnc)
  /-- a key is marshaled without compression -/
  head_fromECDSAPub : ∀ pub, (fromECDSAPub pub).head? = some 4
  unmarshalPubkey_from : ∀ pub, unmarshalPubkey (fromECDSAPub pub) = some pub
  bits_frombits : ∀ b, float64bits (float64frombits b) = b
  decode_encode : ∀ list, decode (encode list) = some list

variable {ι K F V : Type}

namespace NodeCodec

variable (c : NodeCodec K F V)

def encodePubkey64 (pub : K) : List UInt8 := (c.fromECDSAPub pub).drop 1

def decodePubkey64 (b : List UInt8) : Option K := c.unmarshalPubkey (4 :: b)

/-- `EncodeRLP` of `poolStats`. -/
def encodeStats (s : PoolStats F) : UInt64 × UInt64 :=
  (c.float64bits s.sum, c.float64bits s.weight)

/-- `DecodeRLP` of `poolStats`. -/
def decodeStats (b : UInt64 × UInt64) : PoolStats F :=
  ⟨c.float64frombits b.1, c.float64frombits b.2⟩

def encodeNode (s : StoredNode K F) : PoolEntryEnc :=
  ⟨c.encodePubkey64 s.pubkey, s.ip, s.port, s.fails, c.encodeStats s.cStat, c.encodeStats s.dStat,
    c.encodeStats s.rStat, c.encodeStats s.tStat⟩

def decodeNode (e : PoolEntryEnc) : Option (StoredNode K F) := do
  let pubkey ← c.decodePubkey64 e.pubkey
  return ⟨pubkey, e.ip, e.port, e.fails, c.decodeStats e.cStat, c.decodeStats e.dStat,
    c.decodeStats e.rStat, c.decodeStats e.tStat⟩

/-- `saveNodes` and the value it puts into the database. -/
def writeNodes (p : ServerPool ι K F) : Go Empty (V × ServerPool ι K F) := do
  let (list, p) ← p.saveNodes
  return (c.encode (list.map c.encodeNode), p)

/-- The list that `loadNodes` decodes; nothing is loaded if any part does not decode. -/
def readNodes (value : Option V) : List (StoredNode K F) :=
  match value with
  | none => []
  | some enc =>
    match c.decode enc with
    | none => []
    | some list => (list.mapM c.decodeNode).getD []

end NodeCodec

/-! ## The records -/

section Records

variable (c : NodeCodec K F V)

/-- A record after it was stored. -/
def reread (s : StoredNode K F) : StoredNode K F :=
  { s with
    cStat := c.decodeStats (c.encodeStats s.cStat)
    dStat := c.decodeStats (c.encodeStats s.dStat)
    rStat := c.decodeStats (c.encodeStats s.rStat)
    tStat := c.decodeStats (c.encodeStats s.tStat) }

theorem encodeStats_decodeStats (b : UInt64 × UInt64) : c.encodeStats (c.decodeStats b) = b := by
  rw [NodeCodec.encodeStats, NodeCodec.decodeStats, c.bits_frombits, c.bits_frombits]

theorem decodePubkey64_encode (pub : K) : c.decodePubkey64 (c.encodePubkey64 pub) = some pub := by
  have hhead := c.head_fromECDSAPub pub
  unfold NodeCodec.decodePubkey64 NodeCodec.encodePubkey64
  cases hpub : c.fromECDSAPub pub with
  | nil =>
    rw [hpub] at hhead
    cases hhead
  | cons x rest =>
    rw [hpub] at hhead
    cases hhead
    rw [List.drop_succ_cons, List.drop_zero, ← hpub]
    exact c.unmarshalPubkey_from pub

theorem decodeNode_encodeNode (s : StoredNode K F) : c.decodeNode (c.encodeNode s) =
    some (reread c s) := by
  simp only [NodeCodec.decodeNode, NodeCodec.encodeNode, decodePubkey64_encode, Option.bind_eq_bind,
    Option.bind_some]
  rfl

theorem mapM_decodeNode (list : List (StoredNode K F)) :
    (list.map c.encodeNode).mapM c.decodeNode = some (list.map (reread c)) := by
  induction list with
  | nil => rfl
  | cons s rest ih =>
    rw [List.map_cons, List.mapM_cons, decodeNode_encodeNode, ih]
    rfl

theorem readNodes_encode (list : List (StoredNode K F)) :
    c.readNodes (some (c.encode (list.map c.encodeNode))) = list.map (reread c) := by
  simp only [NodeCodec.readNodes, c.decode_encode, mapM_decodeNode, Option.getD_some]

end Records

/-! ## Saving -/

section Save

variable {p : ServerPool ι K F}

/-- The queue is drained from the least recently used entry on. -/
theorem fetchAll_spec {q : PoolEntryQueue} {queueIdx : Ref → Nat} {l : List Ref}
    (h : Queued q queueIdx l) : ∃ q', fetchAll l.length q = .ok (l, q') := by
  induction l generalizing q with
  | nil => exact ⟨q, rfl⟩
  | cons r rest ih =>
    obtain ⟨q1, hfetch, hq1, -⟩ := fetchOldest_spec h
    obtain ⟨q', hrest⟩ := ih hq1
    refine ⟨q', ?_⟩
    simp only [List.length_cons, fetchAll, hfetch, ok_bind, hrest, pure_eq_ok]

theorem encodeRLP_all {l : List Ref} (h : ∀ r ∈ l, (p.heap r).lastConnected ≠ none) :
    ∃ list, (l.mapM fun r => (p.heap r).encodeRLP) = .ok list ∧
      List.Forall₂ (fun r s => (p.heap r).encodeRLP = .ok s) l list := by
  induction l with
  | nil => exact ⟨[], rfl, .nil⟩
  | cons r rest ih =>
    obtain ⟨list, hlist, hall⟩ := ih fun x hx => h x (List.mem_cons_of_mem r hx)
    obtain ⟨s, hs⟩ : ∃ s, (p.heap r).encodeRLP = .ok s := by
      unfold PoolEntry.encodeRLP
      cases hlast : (p.heap r).lastConnected with
      | none => exact absurd hlast (h r List.mem_cons_self)
      | some a => exact ⟨_, rfl⟩
    refine ⟨s :: list, ?_, .cons hs hall⟩
    rw [List.mapM_cons, hs, ok_bind, hlist]
    rfl

theorem saveNodes_spec {l : List Ref} (hqueue : Queued p.knownQueue p.queueIdx l)
    (h : ∀ r ∈ l, (p.heap r).lastConnected ≠ none) :
    ∃ list p', p.saveNodes = .ok (list, p') ∧
      List.Forall₂ (fun r s => (p.heap r).encodeRLP = .ok s) l list := by
  obtain ⟨q, hfetch⟩ := fetchAll_spec hqueue
  obtain ⟨list, hlist, hall⟩ := encodeRLP_all h
  refine ⟨list, { p with knownQueue := q }, ?_, hall⟩
  simp only [ServerPool.saveNodes, hqueue.size, hfetch, ok_bind, hlist, pure_eq_ok]

end Save

/-! ## Loading -/

section Load

variable [DecidableEq ι] [Zero F] {p p' : ServerPool ι K F} {v : Roster ι} {idOf : K → ι}

/-- The entry `r` is known and would be stored as `s`. -/
def LoadedAs (p : ServerPool ι K F) (r : Ref) (s : StoredNode K F) : Prop :=
  r < p.next ∧ (p.heap r).encodeRLP = .ok s ∧ (p.heap r).known = true

omit [DecidableEq ι] in
theorem decodeRLP_encodeRLP {env : Env ι K F} {s : StoredNode K F} {e : PoolEntry ι K F}
    (h : PoolEntry.decodeRLP env idOf s = .ok e) : e.encodeRLP = .ok s ∧ e.known = true := by
  obtain ⟨w, -, hret⟩ := bind_eq_ok h
  cases hret
  refine ⟨?_, rfl⟩
  simp only [PoolEntry.encodeRLP, Function.update_self]
  rfl

omit [Zero F] in
/-- A loaded entry goes to the end of its table. -/
theorem load_table (hroom : (v.table true).length < maxEntries true)
    (hlt : ∀ r ∈ v.table true, r < v.next) (id : ι) :
    (v.load (fun _ => false) id).table true = v.table true ++ [v.next] := by
  have hnot : v.next ∉ v.table true := fun hmem => Nat.lt_irrefl _ (hlt _ hmem)
  show ((v.enter _).touch true v.next).table true = _
  rw [touch_table, Function.update_self]
  show (Recency.touch (maxEntries true) v.next (v.table true)).2 = _
  rw [Recency.touch_room hnot (Nat.ne_of_lt hroom)]

/-- The entries that were loaded before keep their data. -/
theorem loadNode_heap {env : Env ι K F} {call : Nat} {s : StoredNode K F}
    (htrusts : p.trustedNodes = fun _ => false) (hok : p.loadNode env idOf call s = .ok p') :
    LoadedAs p' p.next s ∧ ∀ r s', LoadedAs p r s' → LoadedAs p' r s' := by
  obtain ⟨e, hdecode, hok⟩ := bind_eq_ok hok
  dsimp only at hok
  rw [if_neg (by show ¬p.trustedNodes e.node.id = true; rw [htrusts]; simp)] at hok
  obtain ⟨p1, hset, hok⟩ := bind_eq_ok hok
  obtain ⟨knownSelect, -, hret⟩ := bind_eq_ok hok
  cases hret
  obtain ⟨hnext, -, hheap⟩ := setLatest_heap hset
  have hnext : p1.next = p.next + 1 := hnext
  constructor
  · obtain ⟨hencode, hknown⟩ := decodeRLP_encodeRLP hdecode
    obtain ⟨i, b, hself⟩ := hheap p.next
    rw [p.heap_alloc_self] at hself
    refine ⟨Nat.lt_of_lt_of_eq (Nat.lt_succ_self _) hnext.symm, ?_, ?_⟩
    · show (p1.heap p.next).encodeRLP = _
      rw [hself]
      exact hencode
    · show (p1.heap p.next).known = true
      rw [hself]
      exact hknown
  · rintro r s' ⟨hlt, hencode, hknown⟩
    obtain ⟨i, b, hother⟩ := hheap r
    rw [p.heap_alloc_of_ne e (Nat.ne_of_lt hlt)] at hother
    refine ⟨Nat.lt_of_lt_of_eq (Nat.lt_succ_of_lt hlt) hnext.symm, ?_, ?_⟩
    · show (p1.heap r).encodeRLP = _
      rw [hother]
      exact hencode
    · show (p1.heap r).known = true
      rw [hother]
      exact hknown

/-- By induction on the nodes: the table holds the loaded ones in their order. -/
theorem loadNodes_loaded (env : Env ι K F) (idOf : K → ι) (call : Nat)
    {done : List (StoredNode K F)} (rest : List (StoredNode K F)) (h : Refines (fun _ => false) p v)
    (hdone : List.Forall₂ (LoadedAs p) (v.table true) done)
    (hroom : done.length + rest.length ≤ maxEntries true) :
    ∃ p' v', loadNodes env idOf call p rest = .ok p' ∧ Refines (fun _ => false) p' v' ∧
      List.Forall₂ (LoadedAs p') (v'.table true) (done ++ rest) := by
  induction rest generalizing p v call done with
  | nil =>
    rw [List.append_nil]
    exact ⟨p, v, rfl, h, hdone⟩
  | cons s rest ih =>
    rw [List.length_cons] at hroom
    obtain ⟨p1, hload, hp1⟩ := loadNode_refines env idOf call h s
    obtain ⟨hself, hothers⟩ := loadNode_heap h.trusts hload
    have htable := load_table (v := v) (by rw [hdone.length_eq]; omega)
      (fun r hr => (h.sound.listed true r hr).1) (idOf s.pubkey)
    have hdone1 : List.Forall₂ (LoadedAs p1)
      ((v.load (fun _ => false) (idOf s.pubkey)).table true)
        (done ++ [s]) := by
      rw [htable, ← h.next]
      exact List.rel_append (hdone.imp hothers) (.cons hself .nil)
    obtain ⟨p', v', hrest, hp', hall⟩ := ih (call + 1) hp1 hdone1
      (by rw [List.length_append, List.length_singleton]; omega)
    refine ⟨p', v', ?_, hp', ?_⟩
    · rw [loadNodes, hload]
      exact hrest
    · rw [List.append_assoc] at hall
      exact hall

end Load

/-! ## A restart -/

/-- The entry `r'` of the new pool is the node of the entry `r` of the old one, at
the address it was last connected at and with its statistics. -/
structure Survives (c : NodeCodec K F V) (p q : ServerPool ι K F) (r r' : Ref) : Prop where
  pubkey : (q.heap r').node.pubkey = (p.heap r).node.pubkey
  address : ∃ a a', (p.heap r).lastConnected = some a ∧ (q.heap r').lastConnected = some a' ∧
    ((q.heap r').addrHeap a').ip = ((p.heap r).addrHeap a).ip ∧
    ((q.heap r').addrHeap a').port = ((p.heap r).addrHeap a).port ∧
    ((q.heap r').addrHeap a').fails = ((p.heap r).addrHeap a).fails
  connectStats : c.encodeStats (q.heap r').connectStats = c.encodeStats (p.heap r).connectStats
  delayStats : c.encodeStats (q.heap r').delayStats = c.encodeStats (p.heap r).delayStats
  responseStats : c.encodeStats (q.heap r').responseStats = c.encodeStats (p.heap r).responseStats
  timeoutStats : c.encodeStats (q.heap r').timeoutStats = c.encodeStats (p.heap r).timeoutStats
  known : (q.heap r').known = true

theorem encodeRLP_inv {e : PoolEntry ι K F} {s : StoredNode K F} (h : e.encodeRLP = .ok s) :
    ∃ a, e.lastConnected = some a ∧
      s = ⟨e.node.pubkey, (e.addrHeap a).ip, (e.addrHeap a).port,
        (e.addrHeap a).fails, e.connectStats,
        e.delayStats, e.responseStats, e.timeoutStats⟩ := by
  unfold PoolEntry.encodeRLP at h
  cases hlast : e.lastConnected with
  | none =>
    rw [hlast] at h
    cases h
  | some a =>
    rw [hlast] at h
    cases h
    exact ⟨a, rfl, rfl⟩

theorem survives_of_reread (c : NodeCodec K F V) {p q : ServerPool ι K F} {r r' : Ref}
    {s : StoredNode K F} (h : (p.heap r).encodeRLP = .ok s) (h' : LoadedAs q r' (reread c s)) :
    Survives c p q r r' := by
  obtain ⟨-, hencode, hknown⟩ := h'
  obtain ⟨a, hlast, rfl⟩ := encodeRLP_inv h
  obtain ⟨a', hlast', heq⟩ := encodeRLP_inv hencode
  simp only [reread, StoredNode.mk.injEq] at heq
  obtain ⟨hpub, hip, hport, hfails, hc, hd, hr, ht⟩ := heq
  refine ⟨hpub.symm, ⟨a, a', hlast, hlast', hip.symm, hport.symm, hfails.symm⟩,
    ?_, ?_, ?_, ?_, hknown⟩
  · rw [← hc, encodeStats_decodeStats]
  · rw [← hd, encodeStats_decodeStats]
  · rw [← hr, encodeStats_decodeStats]
  · rw [← ht, encodeStats_decodeStats]

theorem forall₂_join {α β γ : Type} {R : α → γ → Prop}
    {S : β → γ → Prop} {T : α → β → Prop}
    (hT : ∀ a b c, R a c → S b c → T a b) {l : List α} {l' : List β} {list : List γ}
    (h : List.Forall₂ R l list) (h' : List.Forall₂ S l' list) : List.Forall₂ T l l' := by
  induction h generalizing l' with
  | nil =>
    cases h'
    exact .nil
  | cons hr _ ih =>
    cases h' with
    | cons hs hrest => exact .cons (hT _ _ _ hr hs) (ih hrest)

section Restart

variable [DecidableEq ι] [Zero F] [One F] [Add F] [Mul F] [Inhabited (Node ι K)]

/-- **Known nodes survive a restart.** -/
theorem known_nodes_survive (c : NodeCodec K F V) (idOf : K → ι) (stored : List (StoredNode K F))
    (p : ServerPool ι K F) (h : Reachable (fun _ => false) idOf stored (fun _ _ => True) p) :
    ∃ l value p', Queued p.knownQueue p.queueIdx l ∧
      (∀ r ∈ l, (p.heap r).lastConnected ≠ none) ∧
      c.writeNodes p = .ok (value, p') ∧
      ∀ env : Env ι K F, ∃ q l',
        loadNodes env idOf 0 { newServerPool (fun _ => false) with server := true }
          (c.readNodes (some value)) = .ok q ∧
        Queued q.knownQueue q.queueIdx l' ∧ List.Forall₂ (Survives c p q) l l' := by
  obtain ⟨v, hv⟩ := h.refines
  have hqueue : Queued p.knownQueue p.queueIdx (v.table true) := hv.queue true
  -- every entry of the queue is known, so it has been connected
  have hlast : ∀ r ∈ v.table true, (p.heap r).lastConnected ≠ none := by
    intro r hr
    obtain ⟨hlt, hknown, -⟩ := hv.sound.listed true r hr
    have hentry := (known_connected h).entry r (by rw [hv.next]; exact hlt)
    exact hentry (.inl ((hv.member_known r).trans hknown))
  obtain ⟨list, p', hsave, hlist⟩ := saveNodes_spec hqueue hlast
  refine ⟨v.table true, c.encode (list.map c.encodeNode), p', hqueue, hlast, ?_, ?_⟩
  · simp only [NodeCodec.writeNodes, hsave, ok_bind, pure_eq_ok]
  · intro env
    have hempty := newServerPool_refines (K := K) (F := F) (fun _ : ι => false)
    have hroom := hv.sound.length true
    rw [hlist.length_eq] at hroom
    obtain ⟨q, v', hload, hq, hloaded⟩ := loadNodes_loaded env idOf 0
      (list.map (reread c)) hempty .nil
      (by simpa using hroom)
    rw [List.nil_append, List.forall₂_map_right_iff] at hloaded
    refine ⟨q, v'.table true, ?_, hq.queue true, ?_⟩
    · rw [readNodes_encode]
      exact hload
    · exact forall₂_join (fun _ _ _ => survives_of_reread c) hlist hloaded

end Restart

/-- A database that stores the structs themselves. -/
def plainCodec : NodeCodec Nat Int (List PoolEntryEnc) where
  fromECDSAPub pub := 4 :: List.replicate pub 0
  unmarshalPubkey b := some (b.length - 1)
  float64bits x := UInt64.ofNat x.toNat
  float64frombits b := b.toNat
  encode list := list
  decode list := some list
  head_fromECDSAPub _ := rfl
  unmarshalPubkey_from pub := by simp
  bits_frombits b := by simp
  decode_encode _ := rfl

/-- A stored node, and a peer that registers. -/
def registering : Option (ServerPool Nat Nat Int) :=
  runStarted (fun _ => false) id [plainStored 1] (plainEnv 0) (fun _ _ => True)
    [(plainEnv 0, .connect (plainNode 2)), (plainEnv 0, .register 1)]

theorem known_nodes_survive_registering :
    ∃ p l value p', registering = some p ∧ p.knownQueue.queue.size = 2 ∧
      Queued p.knownQueue p.queueIdx l ∧ plainCodec.writeNodes p = .ok (value, p') ∧
      ∃ q l', loadNodes (plainEnv 1) id 0 { newServerPool (fun _ => false) with server := true }
          (plainCodec.readNodes (some value)) = .ok q ∧
        Queued q.knownQueue q.queueIdx l' ∧ List.Forall₂ (Survives plainCodec p q) l l' := by
  have hsize : registering.map (fun p => p.knownQueue.queue.size) = some 2 := by decide +kernel
  obtain ⟨p, hrun, htwo⟩ := Option.map_eq_some_iff.mp hsize
  obtain ⟨l, value, p', hqueue, -, hwrite, hload⟩ :=
    known_nodes_survive plainCodec id [plainStored 1] p (runStarted_reachable hrun)
  exact ⟨p, l, value, p', hrun, htwo, hqueue, hwrite, hload (plainEnv 1)⟩

end MiniOpera.KnownNodes
