import MiniOpera.Lib.Threads
import MiniOpera.PackMessages
import MiniOpera.Peers

/-!
# The handshake of `peer.go`

`Handshake` starts a goroutine that sends the status and the progress, and one that reads
and compares the status of the other side. Each sends its results to `errc`, which has
room for two; `Handshake` takes two results, or one that is an error, or runs into the
timeout. When the status could not be sent, the first goroutine has two results.

A `Party` is one call of `Handshake` with its two goroutines. What it reads is given by
the action, so that a run of `Party.step` is a run against an arbitrary other side; a
`Pair` connects two parties.
-/

namespace MiniOpera.Handshake
open LittleEndian RlpItem InterEvent Peers Threads

def statusMsg : Nat := 0x00

def progressMsg : Nat := 0xf0

structure Msg where
  code : Nat
  payload : List UInt8
  deriving DecidableEq

/-! ## The status -/

structure StatusData where
  protocolVersion : UInt32
  networkID : UInt64
  genesis : Hash
  deriving DecidableEq

def encodeStatus (d : StatusData) : List UInt8 :=
  encodeList (encodeNat d.protocolVersion.toNat ++ (encodeNat d.networkID.toNat ++
    encodeString d.genesis.data))

/-- What follows the list is not looked at. -/
def decodeStatus (bs : List UInt8) : Option StatusData :=
  match split bs with
  | some (.list, payload, _) =>
    match decodeNat payload with
    | none => none
    | some (version, rest) =>
      if version < 2 ^ 32 then
        match decodeNat rest with
        | none => none
        | some (network, rest) =>
          match split rest with
          | some (.string, b, []) =>
            if h : b.length = 32 then
              some ⟨UInt32.ofNat version, UInt64.ofNat network, ⟨b, h⟩⟩
            else none
          | _ => none
      else none
  | _ => none

theorem statusPayload_length (d : StatusData) :
    (encodeNat d.protocolVersion.toNat ++ (encodeNat d.networkID.toNat ++
      encodeString d.genesis.data)).length ≤ 75 := by
  have hversion := PackMessages.encodeNat_length_le d.protocolVersion.toNat
  have hnetwork := PackMessages.encodeNat_length_le d.networkID.toNat
  have hgenesis := (encodeString_length d.genesis.data).2
  rw [d.genesis.size] at hgenesis
  simp only [List.length_append]
  omega

theorem encodeStatus_length (d : StatusData) : (encodeStatus d).length ≤ 84 :=
  (encodeList_length_le _).trans (Nat.add_le_add_right (statusPayload_length d) 9)

theorem decodeStatus_encode (d : StatusData) : decodeStatus (encodeStatus d) = some d := by
  have hsplit := split_encodeList _ [] (Nat.lt_of_le_of_lt (statusPayload_length d) (by decide))
  have hgenesis := split_encodeString d.genesis.data [] (by rw [d.genesis.size]; decide)
  rw [List.append_nil] at hsplit hgenesis
  have hversion := d.protocolVersion.toNat_lt
  rw [decodeStatus, encodeStatus, hsplit]
  dsimp only
  rw [decodeNat_encodeNat _ (by omega)]
  dsimp only
  rw [if_pos hversion, decodeNat_encodeNat _ d.networkID.toNat_lt]
  dsimp only
  rw [hgenesis]
  dsimp only
  rw [dif_pos d.genesis.size, UInt32.ofNat_toNat, UInt64.ofNat_toNat]

/-! ## Errors -/

inductive HandshakeError
  /-- `p2p.Send` failed. -/
  | write
  /-- `ReadMsg` failed. -/
  | read
  | noStatusMsg (code : Nat)
  | msgTooLarge (size : Nat)
  | decode
  | genesisMismatch (theirs ours : Hash)
  | networkIDMismatch (theirs ours : UInt64)
  | protocolVersionMismatch (theirs : UInt32) (ours : Nat)
  /-- `p2p.DiscReadTimeout`. -/
  | readTimeout
  deriving DecidableEq

/-! ## One side -/

/-- The arguments of `Handshake`, and `p.version`. -/
structure Config where
  version : Nat
  network : UInt64
  genesis : Hash
  /-- The payload of the progress message. -/
  progress : List UInt8

def Config.status (c : Config) : StatusData := ⟨UInt32.ofNat c.version, c.network, c.genesis⟩

/-- `readStatus` on the message that was read. -/
def readStatus (c : Config) (msg : Msg) : Option HandshakeError :=
  if msg.code ≠ statusMsg then some (.noStatusMsg msg.code)
  else if msg.payload.length > protocolMaxMsgSize then some (.msgTooLarge msg.payload.length)
  else
    match decodeStatus msg.payload with
    | none => some .decode
    | some status =>
      if status.genesis ≠ c.genesis then some (.genesisMismatch status.genesis c.genesis)
      else if status.networkID ≠ c.network then
        some (.networkIDMismatch status.networkID c.network)
      else if status.protocolVersion.toNat ≠ c.version then
        some (.protocolVersionMismatch status.protocolVersion c.version)
      else none

/-- A result on its way through `errc`. -/
abbrev Result := Option HandshakeError

/-- The goroutine that sends; `failed` when the status could not be sent. -/
inductive Writer
  /-- before the send of the status -/
  | status
  /-- at `errc <- err` -/
  | complaining
  /-- before the send of the progress -/
  | progress (failed : Bool)
  /-- at `errc <- p.SendProgress(progress)` -/
  | reporting (failed : Bool) (r : Result)
  | done (failed : Bool) (r : Result)
  deriving DecidableEq

/-- The goroutine that reads. -/
inductive Reader
  | reading
  | reporting (r : Result)
  | done (r : Result)
  deriving DecidableEq

/-- The loop of `Handshake`, with the number of results taken. -/
inductive Main
  | waiting (taken : Nat)
  | returned (r : Result) (taken : Nat)
  deriving DecidableEq

structure Party where
  config : Config
  writer : Writer
  reader : Reader
  main : Main
  errc : List Result
  /-- The message that was read. -/
  got : Option Msg
  /-- What has reached the other side. -/
  sent : List Msg

def errcSize : Nat := 2

/-- A send can fail, and then the message may have been sent or not. -/
inductive Sending
  | ok
  | failed (arrived : Bool)

def Sending.arrives : Sending → Bool
  | .ok => true
  | .failed arrived => arrived

def Sending.result : Sending → Result
  | .ok => none
  | .failed _ => some .write

inductive PartyAction
  | sendStatus (outcome : Sending)
  | sendProgress (outcome : Sending)
  | pushWriter
  /-- `ReadMsg` returns a message or fails. -/
  | read (msg : Option Msg)
  | pushReader
  | take
  | timeout

namespace Party

def start (c : Config) : Party := ⟨c, .status, .reading, .waiting 0, [], none, []⟩

def deliver (p : Party) (outcome : Sending) (msg : Msg) : List Msg :=
  if outcome.arrives then p.sent ++ [msg] else p.sent

def step (p : Party) : PartyAction → Option Party
  | .sendStatus outcome =>
    if p.writer = .status then
      some { p with
        writer := if outcome.result.isSome then .complaining else .progress false
        sent := p.deliver outcome ⟨statusMsg, encodeStatus p.config.status⟩ }
    else none
  | .sendProgress outcome =>
    match p.writer with
    | .progress failed =>
      some { p with
        writer := .reporting failed outcome.result
        sent := p.deliver outcome ⟨progressMsg, p.config.progress⟩ }
    | _ => none
  | .pushWriter =>
    if p.errc.length < errcSize then
      match p.writer with
      | .complaining => some { p with writer := .progress true, errc := p.errc ++ [some .write] }
      | .reporting failed r => some { p with writer := .done failed r, errc := p.errc ++ [r] }
      | _ => none
    else none
  | .read msg =>
    if p.reader = .reading then
      some { p with
        reader := .reporting (match msg with
          | none => some .read
          | some msg => readStatus p.config msg)
        got := msg }
    else none
  | .pushReader =>
    if p.errc.length < errcSize then
      match p.reader with
      | .reporting r => some { p with reader := .done r, errc := p.errc ++ [r] }
      | _ => none
    else none
  | .take =>
    match p.main, p.errc with
    | .waiting taken, r :: rest =>
      some { p with
        main := if r.isSome ∨ taken + 1 = 2 then .returned r (taken + 1) else .waiting (taken + 1)
        errc := rest }
    | _, _ => none
  | .timeout =>
    match p.main with
    | .waiting taken => some { p with main := .returned (some .readTimeout) taken }
    | _ => none

end Party

/-! ## Results -/

/-- What the writer has pushed, in order. -/
def Writer.pushed : Writer → List Result
  | .status => []
  | .complaining => []
  | .progress failed => if failed then [some .write] else []
  | .reporting failed _ => if failed then [some .write] else []
  | .done failed r => if failed then [some .write, r] else [r]

/-- The status could not be sent. -/
def Writer.failed : Writer → Bool
  | .status => false
  | .complaining => true
  | .progress failed => failed
  | .reporting failed _ => failed
  | .done failed _ => failed

/-- What became of the progress. -/
def Writer.result : Writer → Option Result
  | .reporting _ r => some r
  | .done _ r => some r
  | _ => none

def Reader.pushed : Reader → List Result
  | .done r => [r]
  | _ => []

def Reader.result : Reader → Option Result
  | .reading => none
  | .reporting r => some r
  | .done r => some r

def Main.taken : Main → Nat
  | .waiting taken => taken
  | .returned _ taken => taken

/-! ## Two sides -/

inductive Side
  | left
  | right
  deriving DecidableEq

structure Pair where
  left : Party
  right : Party

def Pair.at (p : Pair) : Side → Party
  | .left => p.left
  | .right => p.right

def Side.other : Side → Side
  | .left => .right
  | .right => .left

inductive PairAction
  /-- A step of one side that reads nothing, or fails to. -/
  | own (side : Side) (action : PartyAction)
  /-- One side reads the first message of the other. -/
  | hear (side : Side)
  /-- After its handshake a side sends what it likes. -/
  | talk (side : Side) (msg : Msg)

def Pair.set (p : Pair) : Side → Party → Pair
  | .left, q => { p with left := q }
  | .right, q => { p with right := q }

def Pair.step (p : Pair) : PairAction → Option Pair
  | .own side action =>
    match action with
    | .read (some _) => none
    | action => ((p.at side).step action).map (p.set side)
  | .hear side =>
    match (p.at side.other).sent with
    | [] => none
    | msg :: _ => ((p.at side).step (.read (some msg))).map (p.set side)
  | .talk side msg =>
    match (p.at side).main with
    | .returned none _ => some (p.set side { p.at side with sent := (p.at side).sent ++ [msg] })
    | _ => none

def Pair.start (left right : Config) : Pair := ⟨.start left, .start right⟩

end MiniOpera.Handshake
