import TrustNet.Lib.Transition
import TrustNet.Network.Fetch
import TrustNet.Network.Rewind

/-!
# A connection between two nodes (`Run`, `listen`)

On each side of a connection two goroutines share the channel `GetBlockHashesChan` and
`LastHash`: `syncNode` asks for blocks and waits for a signal, and `listen` reads the
messages, answers those of the other side and signals what became of the own requests.
Nothing guards the two, and the channel has room for two signals. Between nodes that run
this code they go in lock step: there is one request, answer or signal on its way for a
`syncNode` that waits and none for one that does not, so the channel never fills up. A
peer that answers what nobody asked can fill it.
-/

namespace TrustNet
set_option autoImplicit false

/-! ## Messages and handlers -/

/-- The messages after the handshake; `unknown` has a code that `listen` does not know. -/
inductive PeerMsg where
  | getBlockHashesRequest (msg : GetBlockHashesRequestMsg)
  | getBlockHashesResponse (hashes : List Byte64)
  | getBlockHashesRewind (hash : Byte64)
  | getBlocksRequest (hashes : List Byte64)
  | getBlocksResponse (specs : List BlockSpec)
  | newBlock (spec : BlockSpec)
  | unknown

/-- Why `listen` returned. -/
inductive ListenError where
  | read (msg : String)
  | peer (e : PeerError)
  | fetch (e : FetchError)
  | engine (e : Err)
  | badBlock (cause : String ⊕ Err)
  | unknownMessageType
  | panic

/-- What became of a block: `DecodeNetworkBlockSpec` returned an error, `processBlock` did, or the block was accepted or
known already and has this hash. -/
inductive BlockVerdict where
  | undecoded (e : Err)
  | failed (e : Err)
  | taken (hash : Byte64)

/-- What a handler meets: the engine with its database, the errors of `Decode` and `Send`, and what becomes of the blocks
of the message. -/
structure HandlerInput where
  engine : BlockChainConsensus
  db : Disk
  decodeError : Option String
  sendError : Option String
  verdict : Nat → BlockVerdict

/-- What `Decode` returns. -/
def HandlerInput.decoded {α : Type} (x : HandlerInput) (content : α) : Except String α :=
  match x.decodeError with
  | some e => .error e
  | none => .ok content

/-- What a handler does: `LastHash`, the message that it sends, its signal to `syncNode` and the error it returns. -/
structure Reaction where
  lastHash : Option Byte64
  sends : Option PeerMsg
  signal : Option ChanSignal
  error : Option ListenError

/-- The loop of `handleGetBlocksResponseMsg`. -/
def takeBlocks (verdict : Nat → BlockVerdict) : Nat → List BlockSpec → Option Byte64 → Reaction
  | _, [], lastHash => ⟨lastHash, none, some .next, none⟩
  | i, _ :: specs, lastHash =>
    match verdict i with
    | .undecoded e => ⟨lastHash, none, none, some (.engine e)⟩
    | .failed e => ⟨lastHash, none, some .error, some (.engine e)⟩
    | .taken hash => takeBlocks verdict (i + 1) specs (some hash)

/-- What is sent, if `Send` does not fail. -/
def delivered {α ε : Type} (content : Option α) (error : Option ε) : Option α :=
  match error with
  | some _ => none
  | none => content

section React

variable [Sha512]

/-- The message of an answer to a request for hashes. -/
def HashesMsg.message : HashesMsg → PeerMsg
  | .response hashes => .getBlockHashesResponse hashes
  | .rewind hash => .getBlockHashesRewind hash

/-- The handlers by the code of the message, in the order of `listen`; `none` is a panic. -/
def react (x : HandlerInput) (lastHash : Option Byte64) : PeerMsg → Option Reaction
  | .getBlockHashesRequest msg =>
    match handleGetBlockHashesRequestMsg x.db (x.decoded msg) fun _ => x.sendError with
    | none => none
    | some (reply, e) => some ⟨lastHash, (delivered reply e).map HashesMsg.message, none, e.map .peer⟩
  | .getBlockHashesResponse hashes =>
    let result := handleGetBlockHashesResponseMsg (x.decoded hashes) fun _ => x.sendError
    some ⟨lastHash, (delivered result.request result.error).map .getBlocksRequest, result.signal, result.error.map .peer⟩
  | .getBlockHashesRewind _ =>
    let result := handleGetBlockHashesRewindMsg x.engine x.db lastHash
    match result.outcome with
    | .ok => some ⟨result.lastHash, none, result.signal, none⟩
    | .error e => some ⟨result.lastHash, none, result.signal, some (.engine e)⟩
    | .panic => none
  | .getBlocksRequest hashes =>
    let result := (handleGetBlocksRequestMsg x.db (x.decoded hashes) fun _ => x.sendError).2
    some ⟨lastHash, (delivered result.1 result.2).map .getBlocksResponse, none, result.2.map .fetch⟩
  | .getBlocksResponse specs =>
    match x.decoded specs with
    | .error e => some ⟨lastHash, none, some .error, some (.peer (.syncFailed e))⟩
    | .ok specs =>
      if specs.length < 1 then
        some ⟨lastHash, none, none,
          some (.fetch (.invalidRequest "GetBlocksResponseMsg does not have any blocks"))⟩
      else some (takeBlocks x.verdict 0 specs lastHash)
  | .newBlock spec =>
    match x.decoded spec with
    | .error e => some ⟨lastHash, none, none, some (.badBlock (.inl e))⟩
    | .ok _ =>
      match x.verdict 0 with
      | .undecoded e => some ⟨lastHash, none, none, some (.badBlock (.inr e))⟩
      | .failed e => some ⟨lastHash, none, some .error, some (.engine e)⟩
      | .taken _ => some ⟨lastHash, none, none, none⟩
  | .unknown => some ⟨lastHash, none, none, some .unknownMessageType⟩

end React

/-! ## The two sides -/

/-- Where `syncNode` is: before it looks at the best block, before it sends a request, at the channel, after a signal
that lets it go on, or at its end. -/
inductive SyncPhase where
  | starting | asking | waiting | deciding | returned
  deriving DecidableEq

/-- Where `listen` is: at `ReadMsg`, in a handler, at the channel with what the handler returns after it, or at its
end. -/
inductive Listening where
  | reading
  | handling (m : PeerMsg)
  | signalling (signal : ChanSignal) (error : Option ListenError)
  | returned (error : ListenError)

/-- A side of a connection: the status that the other side sent in the handshake, the two goroutines, the channel,
`LastHash`, and the messages that wait to be read. -/
structure Side where
  status : PeerStatus
  sync : SyncPhase
  listener : Listening
  chan : List ChanSignal
  closed : Bool
  lastHash : Option Byte64
  inbox : List PeerMsg

/-- The capacity of `GetBlockHashesChan`. -/
def chanCapacity : Nat := 2

/-- What a goroutine of a side does next, with what it meets. `announce` is a broadcast from elsewhere in the node, and
`forge` a message that the other side had no reason to send. -/
inductive SideEvent where
  | start (best : Block)
  | ask (sendError : Option String)
  | receive
  | decide (best : Option Block) (uncles : Option (List BlockSpec))
  | announce (spec : BlockSpec)
  | read
  | readError (msg : String)
  | handle (x : HandlerInput)
  | signal
  | close
  | forge (m : PeerMsg)

/-- A panic ends the process. -/
def Side.crash (e : Side) : Side := { e with sync := .returned, listener := .returned .panic }

/-- Where a signal sends `syncNode`. -/
def ChanSignal.leads : ChanSignal → SyncPhase
  | .next | .retry => .deciding
  | .error | .abort | .done => .returned

/-- Where a handler leaves `listen`. -/
@[simp] def Listening.after (error : Option ListenError) : Listening :=
  match error with
  | some e => .returned e
  | none => .reading

/-- Where the reaction of a handler leads. -/
def Reaction.leads (reaction : Reaction) : Listening :=
  match reaction.signal with
  | some signal => .signalling signal reaction.error
  | none => .after reaction.error

section Step

variable [Sha512]

/-- A step of a side, and what it sends. A goroutine that is elsewhere, or that has to wait, does nothing. -/
def Side.step (e : Side) : SideEvent → Side × List PeerMsg
  | .start best =>
    match e.sync with
    | .starting =>
      ({ e with lastHash := best.hash, sync := if isSyncNeeded best e.status then .asking else .returned }, [])
    | _ => (e, [])
  | .ask sendError =>
    match e.sync, e.lastHash, sendError with
    | .asking, none, _ => (e.crash, [])
    | .asking, some _, some _ => ({ e with sync := .returned }, [])
    | .asking, some parentHash, none =>
      ({ e with sync := .waiting }, [.getBlockHashesRequest ⟨parentHash, syncBatch⟩])
    | _, _, _ => (e, [])
  | .receive =>
    match e.sync, e.chan with
    | .waiting, signal :: rest => ({ e with chan := rest, sync := signal.leads }, [])
    -- a closed channel gives the zero value, which is the error
    | .waiting, [] => (if e.closed then { e with sync := ChanSignal.error.leads } else e, [])
    | _, _ => (e, [])
  | .decide best uncles =>
    match e.sync, best with
    | .deciding, none => (e.crash, [])
    | .deciding, some best =>
      if isSyncNeeded best e.status then ({ e with sync := .asking }, [])
      else
        match uncles with
        | none => (e.crash, [])
        | some uncles => ({ e with sync := .returned }, uncles.map .newBlock)
    | _, _ => (e, [])
  | .announce spec => (e, [.newBlock spec])
  | .read =>
    match e.listener, e.inbox with
    | .reading, m :: rest => ({ e with inbox := rest, listener := .handling m }, [])
    | _, _ => (e, [])
  | .readError msg =>
    match e.listener with
    | .reading => ({ e with listener := .returned (.read msg) }, [])
    | _ => (e, [])
  | .handle x =>
    match e.listener with
    | .handling m =>
      match react x e.lastHash m with
      | none => (e.crash, [])
      | some reaction => ({ e with lastHash := reaction.lastHash, listener := reaction.leads }, reaction.sends.toList)
    | _ => (e, [])
  | .signal =>
    match e.listener with
    | .signalling signal error =>
      if e.chan.length < chanCapacity then
        ({ e with chan := e.chan ++ [signal], listener := .after error }, [])
      else (e, [])
    | _ => (e, [])
  | .close =>
    match e.listener with
    | .returned _ => ({ e with closed := true }, [])
    | _ => (e, [])
  | .forge m => ({ e with inbox := e.inbox ++ [m] }, [])

/-- What arrives at a side. -/
def Side.deliver (e : Side) (messages : List PeerMsg) : Side := { e with inbox := e.inbox ++ messages }

/-- A connection, by its sides. -/
abbrev Connection := Bool → Side

/-- A step of side `b`. -/
def Connection.step (c : Connection) (event : Bool × SideEvent) : Connection :=
  let result := (c event.1).step event.2
  Function.update (Function.update c event.1 result.1) (!event.1) ((c !event.1).deliver result.2)

/-- The connection after the handshake, in which each side sent its status to the other. -/
def Connection.established (status : Bool → PeerStatus) : Connection := fun b =>
  ⟨status !b, .starting, .reading, [], false, none, []⟩

abbrev Connection.run (c : Connection) (events : List (Bool × SideEvent)) : Connection :=
  Transition.run Connection.step c events

/-- Both sides only send what their goroutines send. -/
def Honest (events : List (Bool × SideEvent)) : Prop := ∀ event ∈ events, ∀ m, event.2 ≠ .forge m

end Step

/-! ## What is on its way -/

/-- What a message is to the side that reads it: a request of the other side's `syncNode`, an answer to its own, or
neither. -/
inductive MsgKind where
  | request | answer | other
  deriving DecidableEq

def PeerMsg.kind : PeerMsg → MsgKind
  | .getBlockHashesRequest _ | .getBlocksRequest _ => .request
  | .getBlockHashesResponse _ | .getBlockHashesRewind _ | .getBlocksResponse _ => .answer
  | .newBlock _ | .unknown => .other

/-- The signals of a handler that does not fail. -/
def ChanSignal.regular : ChanSignal → Bool
  | .next | .retry | .done => true
  | .error | .abort => false

/-- The requests of the other side that `listen` is at. -/
@[simp] def Listening.asks : Listening → Nat
  | .handling m => if m.kind = .request then 1 else 0
  | _ => 0

/-- The answers that `listen` is at, up to the signal. -/
@[simp] def Listening.answers : Listening → Nat
  | .handling m => if m.kind = .answer then 1 else 0
  | .signalling _ none => 1
  | _ => 0

/-- The failures that `listen` is about to signal. -/
@[simp] def Listening.failures : Listening → Nat
  | .signalling _ (some _) => 1
  | _ => 0

/-- `listen` has met an error: it returns, if it has not. -/
@[simp] def Listening.ends : Listening → Bool
  | .signalling _ (some _) | .returned _ => true
  | _ => false

/-- The requests of the other side that this side has not answered. -/
def Side.asks (e : Side) : Nat := e.inbox.countP (fun m => m.kind = .request) + e.listener.asks

/-- The answers to this side that its `syncNode` has not got the signal of. -/
def Side.answers (e : Side) : Nat :=
  e.inbox.countP (fun m => m.kind = .answer) + e.listener.answers + e.chan.countP ChanSignal.regular

/-- The requests, answers and signals that are on their way for `syncNode` of side `b`. -/
def Connection.underway (c : Connection) (b : Bool) : Nat := (c !b).asks + (c b).answers

/-- What a handler comes to for a message of this kind: it fails, and then sends nothing and signals a failure if it
signals; a request is answered; an answer leads to the next request, or to a signal. -/
inductive Flows : MsgKind → Reaction → Prop where
  | fails {kind : MsgKind} {lastHash : Option Byte64} {signal : Option ChanSignal} {e : ListenError}
      (failure : ∀ sig ∈ signal, sig.regular = false) : Flows kind ⟨lastHash, none, signal, some e⟩
  | answers {lastHash : Option Byte64} {m : PeerMsg} (kind : m.kind = .answer) : Flows .request ⟨lastHash, some m, none, none⟩
  | asks {lastHash : Option Byte64} {m : PeerMsg} (kind : m.kind = .request) : Flows .answer ⟨lastHash, some m, none, none⟩
  | signals {lastHash : Option Byte64} {signal : ChanSignal} (regular : signal.regular = true) :
      Flows .answer ⟨lastHash, none, some signal, none⟩
  | passes {lastHash : Option Byte64} : Flows .other ⟨lastHash, none, none, none⟩

section Flows

variable [Sha512] {x : HandlerInput} {lastHash : Option Byte64} {reaction : Reaction}

omit [Sha512] in
theorem takeBlocks_flows (verdict : Nat → BlockVerdict) (i : Nat) (specs : List BlockSpec) (lastHash : Option Byte64) :
    Flows .answer (takeBlocks verdict i specs lastHash) := by
  induction specs generalizing i lastHash with
  | nil => exact .signals rfl
  | cons spec specs ih =>
    unfold takeBlocks
    cases verdict i with
    | undecoded e => exact .fails (by simp [ChanSignal.regular])
    | failed e => exact .fails (by simp [ChanSignal.regular])
    | taken hash => exact ih (i + 1) (some hash)

omit [Sha512] in
/-- A request for hashes that does not fail is answered. -/
theorem handleGetBlockHashesRequestMsg_sends {db : Disk} {msg : Except String GetBlockHashesRequestMsg}
    {send : HashesMsg → Option String} {reply : Option HashesMsg}
    (answers : handleGetBlockHashesRequestMsg db msg send = some (reply, none)) : ∃ answer, reply = some answer := by
  unfold handleGetBlockHashesRequestMsg at answers
  split at answers
  · cases answers
  · split at answers
    · cases answers
    · split at answers
      · exact ⟨_, (congrArg Prod.fst (Option.some.inj answers)).symm⟩
      · split at answers
        · cases answers
        · exact ⟨_, (congrArg Prod.fst (Option.some.inj answers)).symm⟩

theorem react_getBlockHashesRequest {msg : GetBlockHashesRequestMsg}
    (reacts : react x lastHash (.getBlockHashesRequest msg) = some reaction) : Flows .request reaction := by
  simp only [react] at reacts
  cases result : handleGetBlockHashesRequestMsg x.db (x.decoded msg) fun _ => x.sendError with
  | none =>
    rw [result] at reacts
    cases reacts
  | some answer =>
    obtain ⟨reply, error⟩ := answer
    rw [result] at reacts
    cases reacts
    cases error with
    | some e => exact .fails (by simp [ChanSignal.regular])
    | none =>
      obtain ⟨answer, rfl⟩ := handleGetBlockHashesRequestMsg_sends result
      cases answer with
      | response hashes => exact .answers rfl
      | rewind hash => exact .answers rfl

theorem react_getBlockHashesResponse {hashes : List Byte64}
    (reacts : react x lastHash (.getBlockHashesResponse hashes) = some reaction) : Flows .answer reaction := by
  simp only [react] at reacts
  cases reacts
  unfold handleGetBlockHashesResponseMsg
  split
  · exact .fails (by simp [ChanSignal.regular])
  · split
    · exact .signals rfl
    · split
      · exact .fails (by simp [ChanSignal.regular])
      · exact .asks rfl

/-- A rewind signals a retry, unless it fails. -/
theorem handleGetBlockHashesRewindMsg_signals (c : BlockChainConsensus) (db : Disk) (lastHash : Option Byte64) :
    ((handleGetBlockHashesRewindMsg c db lastHash).outcome = .ok →
        (handleGetBlockHashesRewindMsg c db lastHash).signal = some .retry) ∧
      ∀ e, (handleGetBlockHashesRewindMsg c db lastHash).outcome = .error e →
        (handleGetBlockHashesRewindMsg c db lastHash).signal = none := by
  unfold handleGetBlockHashesRewindMsg
  simp only
  split
  · exact ⟨fun ok => (by cases ok), fun e eq => by cases eq⟩
  · split
    · exact ⟨fun ok => (by cases ok), fun e _ => rfl⟩
    · exact ⟨fun ok => (by cases ok), fun e eq => by cases eq⟩
    · exact ⟨fun _ => rfl, fun e eq => by cases eq⟩

theorem react_getBlockHashesRewind {hash : Byte64}
    (reacts : react x lastHash (.getBlockHashesRewind hash) = some reaction) : Flows .answer reaction := by
  obtain ⟨retries, silent⟩ := handleGetBlockHashesRewindMsg_signals x.engine x.db lastHash
  simp only [react] at reacts
  generalize handleGetBlockHashesRewindMsg x.engine x.db lastHash = result at reacts retries silent
  split at reacts
  · rename_i ok
    cases reacts
    rw [retries ok]
    exact .signals rfl
  · rename_i e failed
    cases reacts
    rw [silent e failed]
    exact .fails (by simp [ChanSignal.regular])
  · cases reacts

theorem react_getBlocksRequest {hashes : List Byte64}
    (reacts : react x lastHash (.getBlocksRequest hashes) = some reaction) : Flows .request reaction := by
  simp only [react] at reacts
  cases reacts
  unfold handleGetBlocksRequestMsg
  split
  · exact .fails (by simp [ChanSignal.regular])
  · split
    · exact .fails (by simp [ChanSignal.regular])
    · simp only
      split
      · exact .fails (by simp [ChanSignal.regular])
      · cases x.sendError with
        | some e => exact .fails (by simp [ChanSignal.regular])
        | none => exact .answers rfl

theorem react_getBlocksResponse {specs : List BlockSpec}
    (reacts : react x lastHash (.getBlocksResponse specs) = some reaction) : Flows .answer reaction := by
  simp only [react] at reacts
  split at reacts
  · cases reacts
    exact .fails (by simp [ChanSignal.regular])
  · split at reacts
    · cases reacts
      exact .fails (by simp [ChanSignal.regular])
    · cases reacts
      exact takeBlocks_flows x.verdict 0 _ lastHash

theorem react_newBlock {spec : BlockSpec} (reacts : react x lastHash (.newBlock spec) = some reaction) :
    Flows .other reaction := by
  simp only [react] at reacts
  split at reacts
  · cases reacts
    exact .fails (by simp [ChanSignal.regular])
  · split at reacts
    · cases reacts
      exact .fails (by simp [ChanSignal.regular])
    · cases reacts
      exact .fails (by simp [ChanSignal.regular])
    · cases reacts
      exact .passes

/-- **What the handlers come to.** -/
theorem react_flows {m : PeerMsg} (reacts : react x lastHash m = some reaction) : Flows m.kind reaction := by
  cases m with
  | getBlockHashesRequest msg => exact react_getBlockHashesRequest reacts
  | getBlockHashesResponse hashes => exact react_getBlockHashesResponse reacts
  | getBlockHashesRewind hash => exact react_getBlockHashesRewind reacts
  | getBlocksRequest hashes => exact react_getBlocksRequest reacts
  | getBlocksResponse specs => exact react_getBlocksResponse reacts
  | newBlock spec => exact react_newBlock reacts
  | unknown =>
    cases reacts
    exact .fails (by simp [ChanSignal.regular])

end Flows

/-! ## Steps -/

section Moves

variable [Sha512]

/-- What a step of a side comes to. -/
inductive Side.Moves (e : Side) : Side → List PeerMsg → Prop where
  | stays : Moves e e []
  | syncs (lastHash : Option Byte64) (phase : SyncPhase) (specs : List BlockSpec) (was : e.sync ≠ .waiting)
      (goes : phase ≠ .waiting) : Moves e { e with lastHash, sync := phase } (specs.map .newBlock)
  | asks (msg : GetBlockHashesRequestMsg) (was : e.sync = .asking) :
      Moves e { e with sync := .waiting } [.getBlockHashesRequest msg]
  | wakes (signal : ChanSignal) (rest : List ChanSignal) (was : e.sync = .waiting) (chan : e.chan = signal :: rest) :
      Moves e { e with chan := rest, sync := signal.leads } []
  | hangsUp (was : e.sync = .waiting) (closed : e.closed = true) : Moves e { e with sync := ChanSignal.error.leads } []
  | announces (spec : BlockSpec) : Moves e e [.newBlock spec]
  | reads (m : PeerMsg) (rest : List PeerMsg) (was : e.listener = .reading) (inbox : e.inbox = m :: rest) :
      Moves e { e with inbox := rest, listener := .handling m } []
  | readFails (msg : String) (was : e.listener = .reading) : Moves e { e with listener := .returned (.read msg) } []
  | handles (m : PeerMsg) (reaction : Reaction) (was : e.listener = .handling m) (flows : Flows m.kind reaction) :
      Moves e { e with lastHash := reaction.lastHash, listener := reaction.leads } reaction.sends.toList
  | signals (signal : ChanSignal) (error : Option ListenError) (was : e.listener = .signalling signal error)
      (room : e.chan.length < chanCapacity) : Moves e { e with chan := e.chan ++ [signal], listener := .after error } []
  | closes (error : ListenError) (was : e.listener = .returned error) : Moves e { e with closed := true } []
  | crashes : Moves e e.crash []

theorem Side.step_moves (e : Side) {event : SideEvent} (honest : ∀ m, event ≠ .forge m) :
    e.Moves (e.step event).1 (e.step event).2 := by
  cases event with
  | start best =>
    simp only [Side.step]
    split
    · rename_i was
      refine .syncs best.hash _ [] (by simp [was]) ?_
      split <;> decide
    · exact .stays
  | ask sendError =>
    simp only [Side.step]
    split
    · exact .crashes
    · rename_i was _
      exact .syncs e.lastHash .returned [] (by simp [was]) (by decide)
    · rename_i was _
      exact .asks _ was
    · exact .stays
  | receive =>
    simp only [Side.step]
    split
    · rename_i was chan
      exact .wakes _ _ was chan
    · rename_i was chan
      split
      · rename_i closed
        exact .hangsUp was closed
      · exact .stays
    · exact .stays
  | decide best uncles =>
    simp only [Side.step]
    split
    · exact .crashes
    · rename_i was
      split
      · exact .syncs e.lastHash .asking [] (by simp [was]) (by decide)
      · split
        · exact .crashes
        · exact .syncs e.lastHash .returned _ (by simp [was]) (by decide)
    · exact .stays
  | announce spec => exact .announces spec
  | read =>
    simp only [Side.step]
    split
    · rename_i was inbox
      exact .reads _ _ was inbox
    · exact .stays
  | readError msg =>
    simp only [Side.step]
    split
    · rename_i was
      exact .readFails msg was
    · exact .stays
  | handle x =>
    simp only [Side.step]
    split
    · rename_i m was
      split
      · exact .crashes
      · rename_i reaction reacts
        exact .handles m reaction was (react_flows reacts)
    · exact .stays
  | signal =>
    simp only [Side.step]
    split
    · rename_i was
      split
      · rename_i room
        exact .signals _ _ was room
      · exact .stays
    · exact .stays
  | close =>
    simp only [Side.step]
    split
    · rename_i was
      exact .closes _ was
    · exact .stays
  | forge m => exact absurd rfl (honest m)

end Moves

/-! ## Lock step -/

/-- What holds between a side and the other one: as long as `listen` goes on, one thing is on its way for a `syncNode`
that waits, and nothing for one that does not; after a failure there are at most one regular signal and the failure. -/
structure LockStep (e o : Side) : Prop where
  most : e.listener.ends = false → o.asks + e.answers ≤ if e.sync = .waiting then 1 else 0
  least : e.sync = .waiting → e.listener.ends = false → o.listener.ends = false → 1 ≤ o.asks + e.answers
  regular : e.chan.countP ChanSignal.regular ≤ 1
  failures : e.chan.countP (fun signal => !signal.regular) + e.listener.failures ≤ if e.listener.ends then 1 else 0
  signal : ∀ signal error, e.listener = .signalling signal error → signal.regular = error.isNone
  closed : e.closed = true → e.listener.ends = true

section Counts

variable {e e' o : Side} {sent : List PeerMsg}

theorem Side.deliver_asks (o : Side) (sent : List PeerMsg) :
    (o.deliver sent).asks = o.asks + sent.countP (fun m => m.kind = .request) := by
  simp only [Side.deliver, Side.asks, List.countP_append]
  omega

theorem Side.deliver_answers (o : Side) (sent : List PeerMsg) :
    (o.deliver sent).answers = o.answers + sent.countP (fun m => m.kind = .answer) := by
  simp only [Side.deliver, Side.answers, List.countP_append]
  omega

theorem countP_newBlock {kind : MsgKind} (specs : List BlockSpec) (ne : MsgKind.other ≠ kind) :
    (specs.map PeerMsg.newBlock).countP (fun m => m.kind = kind) = 0 := by
  rw [List.countP_eq_zero]
  intro m member
  obtain ⟨spec, -, rfl⟩ := List.mem_map.mp member
  exact fun same => ne (of_decide_eq_true same)

/-- A side hands on what it was asked, unless `listen` ends. -/
theorem Side.Moves.passesOn (moves : e.Moves e' sent) :
    e'.asks + sent.countP (fun m => m.kind = .answer) ≤ e.asks ∧
      (e'.listener.ends = false → e.listener.ends = false ∧ e'.asks + sent.countP (fun m => m.kind = .answer) = e.asks) := by
  cases moves with
  | stays => simp
  | syncs lastHash phase specs was goes =>
    rw [countP_newBlock specs (by decide)]
    simp [Side.asks]
  | asks msg was => simp [Side.asks, PeerMsg.kind]
  | wakes signal rest was chan => simp [Side.asks]
  | hangsUp was closed => simp [Side.asks]
  | announces spec => simp [PeerMsg.kind]
  | reads m rest was inbox => simp [Side.asks, inbox, was, List.countP_cons]
  | readFails msg was => simp [Side.asks, was]
  | handles m reaction was flows =>
    simp only [Side.asks, was, Listening.asks, Listening.ends]
    generalize m.kind = kind at flows
    cases flows with
    | @fails _ lastHash signal error failure => cases signal <;> simp [Reaction.leads]
    | answers answer => simp [Reaction.leads, answer]
    | asks request => simp [Reaction.leads, request]
    | signals regular => simp [Reaction.leads]
    | passes => simp [Reaction.leads]
  | signals signal error was room => cases error <;> simp [Side.asks, was]
  | closes error was => simp [Side.asks]
  | crashes => simp [Side.asks, Side.crash]

/-- The other side's step. -/
theorem LockStep.other (lock : LockStep o e) (moves : e.Moves e' sent) : LockStep (o.deliver sent) e' := by
  obtain ⟨fewer, same⟩ := moves.passesOn
  refine ⟨fun goesOn => ?_, fun waits goesOn goesOn' => ?_, lock.regular, lock.failures, lock.signal, lock.closed⟩
  · have most := lock.most goesOn
    rw [Side.deliver_answers]
    change e'.asks + _ ≤ if o.sync = .waiting then 1 else 0
    omega
  · obtain ⟨before, eq⟩ := same goesOn'
    have least := lock.least waits goesOn before
    rw [Side.deliver_answers]
    omega

theorem ChanSignal.leads_ne_waiting (signal : ChanSignal) : signal.leads ≠ .waiting := by cases signal <;> decide

/-- After a failure it is the channel that counts. -/
theorem LockStep.of_ends (ends : e.listener.ends = true) (regular : e.chan.countP ChanSignal.regular ≤ 1)
    (failures : e.chan.countP (fun signal => !signal.regular) + e.listener.failures ≤ 1)
    (signal : ∀ signal error, e.listener = .signalling signal error → signal.regular = error.isNone) : LockStep e o := by
  refine ⟨fun goesOn => ?_, fun _ goesOn => ?_, regular, ?_, signal, fun _ => ends⟩
  · rw [ends] at goesOn
    cases goesOn
  · rw [ends] at goesOn
    cases goesOn
  · rw [if_pos ends]
    exact failures

/-- As long as `listen` goes on, it is what is on its way. -/
theorem LockStep.of_goesOn (goesOn : e.listener.ends = false)
    (most : o.asks + e.answers ≤ if e.sync = .waiting then 1 else 0)
    (least : e.sync = .waiting → o.listener.ends = false → 1 ≤ o.asks + e.answers)
    (chan : ∀ signal ∈ e.chan, signal.regular = true)
    (signal : ∀ signal error, e.listener = .signalling signal error → signal.regular = error.isNone)
    (isOpen : e.closed = false) : LockStep e o := by
  refine ⟨fun _ => most, fun waits _ => least waits, ?_, ?_, signal, fun closed => ?_⟩
  · have one : (if e.sync = .waiting then 1 else 0) ≤ 1 := by split <;> omega
    unfold Side.answers at most
    omega
  · have none' : e.chan.countP (fun signal => !signal.regular) = 0 := by
      rw [List.countP_eq_zero]
      intro signal member
      simp [chan signal member]
    have silent : e.listener.failures = 0 := by
      cases listener : e.listener with
      | signalling signal error =>
        cases error with
        | none => rfl
        | some error => simp [listener] at goesOn
      | _ => rfl
    omega
  · rw [isOpen] at closed
    cases closed

section GoesOn

variable (lock : LockStep e o) (goesOn : e.listener.ends = false)
include lock goesOn

theorem LockStep.chan_regular {signal : ChanSignal} (member : signal ∈ e.chan) : signal.regular = true := by
  have failures := lock.failures
  rw [goesOn] at failures
  have none' : e.chan.countP (fun signal => !signal.regular) = 0 := by
    simp only [Bool.false_eq_true, if_false] at failures
    omega
  simpa using List.countP_eq_zero.mp none' signal member

theorem LockStep.isOpen : e.closed = false := by
  cases closed : e.closed with
  | false => rfl
  | true =>
    have ends := lock.closed closed
    rw [goesOn] at ends
    cases ends

end GoesOn

/-- `syncNode` goes from one of its points to another one that is not the channel. -/
theorem LockStep.syncs (lock : LockStep e o) (lastHash : Option Byte64) {phase : SyncPhase} (specs : List BlockSpec)
    (was : e.sync ≠ .waiting) (goes : phase ≠ .waiting) :
    LockStep { e with lastHash, sync := phase } (o.deliver (specs.map .newBlock)) := by
  refine ⟨fun goesOn => ?_, fun waits => absurd waits goes, lock.regular, lock.failures, lock.signal, lock.closed⟩
  have most := lock.most goesOn
  rw [if_neg was] at most
  rw [if_neg goes, Side.deliver_asks, countP_newBlock specs (by decide)]
  exact most

/-- `syncNode` sends a request. -/
theorem LockStep.sends (lock : LockStep e o) (msg : GetBlockHashesRequestMsg) (was : e.sync = .asking) :
    LockStep { e with sync := .waiting } (o.deliver [.getBlockHashesRequest msg]) := by
  have one : [PeerMsg.getBlockHashesRequest msg].countP (fun m => m.kind = .request) = 1 := rfl
  refine ⟨fun goesOn => ?_, fun _ _ _ => ?_, lock.regular, lock.failures, lock.signal, lock.closed⟩
  · have most := lock.most goesOn
    rw [was, if_neg (by decide)] at most
    rw [if_pos rfl, Side.deliver_asks, one]
    change o.asks + 1 + e.answers ≤ 1
    omega
  · rw [Side.deliver_asks, one]
    omega

/-- `syncNode` gets a signal. -/
theorem LockStep.wakes (lock : LockStep e o) {signal : ChanSignal} {rest : List ChanSignal} (was : e.sync = .waiting)
    (chan : e.chan = signal :: rest) : LockStep { e with chan := rest, sync := signal.leads } o := by
  have regular := lock.regular
  have failures := lock.failures
  rw [chan, List.countP_cons] at regular failures
  refine ⟨fun goesOn => ?_, fun waits => absurd waits signal.leads_ne_waiting, ?_, ?_, lock.signal, lock.closed⟩
  · have most := lock.most goesOn
    have first := lock.chan_regular goesOn (show signal ∈ e.chan by rw [chan]; exact List.mem_cons_self)
    rw [if_pos was, Side.answers, chan, List.countP_cons, if_pos first] at most
    rw [if_neg signal.leads_ne_waiting]
    dsimp only [Side.answers]
    omega
  · dsimp only
    omega
  · dsimp only
    omega

/-- `listen` reads a message. -/
theorem LockStep.reads (lock : LockStep e o) {m : PeerMsg} {rest : List PeerMsg} (was : e.listener = .reading)
    (inbox : e.inbox = m :: rest) : LockStep { e with inbox := rest, listener := .handling m } o := by
  have goesOn : e.listener.ends = false := by rw [was]; rfl
  have same : ({ e with inbox := rest, listener := .handling m } : Side).answers = e.answers := by
    simp only [Side.answers, inbox, was, List.countP_cons, Listening.answers, decide_eq_true_eq]
    omega
  refine .of_goesOn rfl ?_ (fun waits others => ?_) (fun signal => lock.chan_regular goesOn) (fun _ _ eq => by cases eq)
    (lock.isOpen goesOn)
  · rw [same]
    exact lock.most goesOn
  · rw [same]
    exact lock.least waits goesOn others

/-- A handler returns. -/
theorem LockStep.handles (lock : LockStep e o) {m : PeerMsg} {reaction : Reaction} (was : e.listener = .handling m)
    (flows : Flows m.kind reaction) :
    LockStep { e with lastHash := reaction.lastHash, listener := reaction.leads } (o.deliver reaction.sends.toList) := by
  have goesOn : e.listener.ends = false := by rw [was]; rfl
  have most := lock.most goesOn
  have least := fun waits => lock.least waits goesOn
  have chan := fun signal (member : signal ∈ e.chan) => lock.chan_regular goesOn member
  have failures := lock.failures
  simp only [Side.answers, was, Listening.answers, Listening.failures, Listening.ends, Bool.false_eq_true,
    if_false] at most least failures
  generalize m.kind = kind at flows most least
  cases flows with
  | @fails _ lastHash signal error failure =>
    cases signal with
    | none => exact .of_ends rfl lock.regular (by simp [Reaction.leads]; omega) fun _ _ eq => by cases eq
    | some signal =>
      refine .of_ends rfl lock.regular (by simp [Reaction.leads]; omega) fun _ _ eq => ?_
      cases eq
      exact failure signal rfl
  | @answers lastHash m' answer =>
    refine .of_goesOn rfl ?_ (fun waits others => ?_) chan (fun _ _ eq => by cases eq) (lock.isOpen goesOn)
    · simpa [Side.deliver_asks, Side.answers, Reaction.leads, answer] using most
    · simpa [Side.deliver_asks, Side.answers, Reaction.leads, answer] using least waits others
  | @asks lastHash m' request =>
    refine .of_goesOn rfl ?_ (fun waits others => ?_) chan (fun _ _ eq => by cases eq) (lock.isOpen goesOn)
    · simp [Side.deliver_asks, Side.answers, Reaction.leads, request] at most ⊢
      omega
    · simp [Side.deliver_asks, Side.answers, Reaction.leads, request]
      omega
  | @signals lastHash signal regular =>
    refine .of_goesOn rfl ?_ (fun waits others => ?_) chan (fun _ _ eq => ?_) (lock.isOpen goesOn)
    · simpa [Side.deliver_asks, Side.answers, Reaction.leads] using most
    · simpa [Side.deliver_asks, Side.answers, Reaction.leads] using least waits others
    · cases eq
      exact regular
  | passes =>
    refine .of_goesOn rfl ?_ (fun waits others => ?_) chan (fun _ _ eq => by cases eq) (lock.isOpen goesOn)
    · simpa [Side.deliver_asks, Side.answers, Reaction.leads] using most
    · simpa [Side.deliver_asks, Side.answers, Reaction.leads] using least waits others

/-- `listen` puts its signal into the channel. -/
theorem LockStep.signals (lock : LockStep e o) {signal : ChanSignal} {error : Option ListenError}
    (was : e.listener = .signalling signal error) :
    LockStep { e with chan := e.chan ++ [signal], listener := .after error } o := by
  have kind := lock.signal signal error was
  cases error with
  | some error =>
    have regular := lock.regular
    have failures := lock.failures
    rw [Option.isNone_some] at kind
    simp only [was, Listening.failures, Listening.ends, if_true] at failures
    refine .of_ends rfl ?_ ?_ fun _ _ eq => by cases eq
    · simpa [kind] using regular
    · simpa [kind] using failures
  | none =>
    have goesOn : e.listener.ends = false := by rw [was]; rfl
    have same : ({ e with chan := e.chan ++ [signal], listener := .after none } : Side).answers = e.answers := by
      simp [Side.answers, was, List.countP_append, kind]
      omega
    refine .of_goesOn rfl ?_ (fun waits others => ?_) (fun signal' member => ?_) (fun _ _ eq => by cases eq)
      (lock.isOpen goesOn)
    · rw [same]
      exact lock.most goesOn
    · rw [same]
      exact lock.least waits goesOn others
    · rcases List.mem_append.mp member with old | new
      · exact lock.chan_regular goesOn old
      · rw [List.mem_singleton.mp new]
        exact kind

/-- `listen` ends without a signal. -/
theorem LockStep.ends (lock : LockStep e o) (phase : SyncPhase) (error : ListenError) :
    LockStep { e with sync := phase, listener := .returned error } o := by
  refine .of_ends rfl lock.regular ?_ fun _ _ eq => by cases eq
  have failures := lock.failures
  have one : (if e.listener.ends then 1 else 0) ≤ 1 := by split <;> omega
  simp only [Listening.failures]
  omega

/-- **A step of the side itself.** -/
theorem LockStep.own (lock : LockStep e o) (moves : e.Moves e' sent) : LockStep e' (o.deliver sent) := by
  have silent : o.deliver [] = o := by simp [Side.deliver]
  cases moves with
  | stays => rwa [silent]
  | syncs lastHash phase specs was goes => exact lock.syncs lastHash specs was goes
  | asks msg was => exact lock.sends msg was
  | wakes signal rest was chan =>
    rw [silent]
    exact lock.wakes was chan
  | hangsUp was closed =>
    rw [silent]
    refine .of_ends (lock.closed closed) lock.regular ?_ lock.signal
    have failures := lock.failures
    rwa [if_pos (lock.closed closed)] at failures
  | announces spec =>
    have none' : [PeerMsg.newBlock spec].countP (fun m => m.kind = .request) = 0 := rfl
    refine ⟨?_, ?_, lock.regular, lock.failures, lock.signal, lock.closed⟩
    · rw [Side.deliver_asks, none']
      exact lock.most
    · rw [Side.deliver_asks, none']
      exact lock.least
  | reads m rest was inbox =>
    rw [silent]
    exact lock.reads was inbox
  | readFails msg was =>
    rw [silent]
    exact lock.ends e.sync (.read msg)
  | handles m reaction was flows => exact lock.handles was flows
  | signals signal error was room =>
    rw [silent]
    exact lock.signals was
  | closes error was =>
    rw [silent]
    exact ⟨lock.most, lock.least, lock.regular, lock.failures, lock.signal, fun _ => by rw [was]; rfl⟩
  | crashes =>
    rw [silent]
    exact lock.ends .returned .panic

/-- There is room for a signal. -/
theorem LockStep.room (lock : LockStep e o) {signal : ChanSignal} {error : Option ListenError}
    (at' : e.listener = .signalling signal error) : e.chan.length < chanCapacity := by
  have length : e.chan.length = e.chan.countP ChanSignal.regular + e.chan.countP (fun signal => !signal.regular) := by
    rw [List.length_eq_countP_add_countP ChanSignal.regular]
    simp only [Bool.not_eq_true, Bool.decide_eq_false]
  have failures := lock.failures
  unfold chanCapacity
  cases error with
  | some error =>
    have regular := lock.regular
    simp only [at', Listening.failures, Listening.ends, if_true] at failures
    omega
  | none =>
    have most := lock.most (by rw [at']; rfl)
    have one : (if e.sync = .waiting then 1 else 0) ≤ 1 := by split <;> omega
    simp only [at', Listening.failures, Listening.ends, Bool.false_eq_true, if_false] at failures
    simp only [Side.answers, at', Listening.answers] at most
    omega

/-- `syncNode` is at the channel while `listen` handles an answer. -/
theorem LockStep.waits_of_answer (lock : LockStep e o) {m : PeerMsg} (at' : e.listener = .handling m)
    (kind : m.kind = .answer) : e.sync = .waiting := by
  by_contra elsewhere
  have most := lock.most (by rw [at']; rfl)
  simp only [if_neg elsewhere, Side.answers, at', Listening.answers, if_pos kind] at most
  omega

end Counts

/-! ## A whole connection -/

section Run

variable [Sha512]

theorem Connection.step_own (c : Connection) (event : Bool × SideEvent) :
    c.step event event.1 = ((c event.1).step event.2).1 := by
  unfold Connection.step
  rw [Function.update_of_ne (by simp), Function.update_self]

theorem Connection.step_other (c : Connection) (event : Bool × SideEvent) :
    c.step event (!event.1) = (c !event.1).deliver ((c event.1).step event.2).2 := by
  unfold Connection.step
  rw [Function.update_self]

/-- A step of either side keeps both in lock step. -/
theorem lockStep_step {c : Connection} (lock : ∀ b, LockStep (c b) (c !b)) {event : Bool × SideEvent}
    (honest : ∀ m, event.2 ≠ .forge m) (b : Bool) : LockStep (c.step event b) (c.step event !b) := by
  have moves := (c event.1).step_moves honest
  by_cases own : b = event.1
  · subst own
    rw [Connection.step_own, Connection.step_other]
    exact (lock event.1).own moves
  · have other : b = !event.1 := Bool.eq_not.mpr own
    rw [other, Bool.not_not, Connection.step_own, Connection.step_other]
    have lock' := lock !event.1
    rw [Bool.not_not] at lock'
    exact lock'.other moves

theorem lockStep_run (status : Bool → PeerStatus) {events : List (Bool × SideEvent)} (honest : Honest events) (b : Bool) :
    LockStep ((Connection.established status).run events b) ((Connection.established status).run events !b) := by
  have start : ∀ b, LockStep (Connection.established status b) (Connection.established status !b) := fun b =>
    .of_goesOn rfl (Nat.zero_le _) (fun waits => by cases waits) (fun _ member => by cases member)
      (fun _ _ eq => by cases eq) rfl
  have along : Transition.Along Connection.step (fun _ event => ∀ m, event.2 ≠ .forge m)
      (Connection.established status) events := Transition.along_of_forall (fun _ event member => honest event member) _
  exact along.invariant (fun c => ∀ b, LockStep (c b) (c !b)) (fun c event lock fine => lockStep_step lock fine) start b

/-- **The two goroutines of a side go in lock step.** Between honest sides, at every point of a connection: as long as
`listen` goes on, at most one request, answer or signal is on its way for `syncNode`, and none if it does not wait;
`listen` finds room in the channel for its signal; it handles an answer, and so uses `LastHash`, only while `syncNode`
waits at the channel; and a `syncNode` that waits is waited for, unless `listen` of one side ends. -/
theorem connection_lock_step (status : Bool → PeerStatus) {events : List (Bool × SideEvent)} (honest : Honest events)
    (b : Bool) :
    let c := (Connection.established status).run events
    ((c b).listener.ends = false → c.underway b ≤ if (c b).sync = .waiting then 1 else 0) ∧
      (∀ signal error, (c b).listener = .signalling signal error → (c b).chan.length < chanCapacity) ∧
      (∀ m, (c b).listener = .handling m → m.kind = .answer → (c b).sync = .waiting) ∧
      ((c b).sync = .waiting → (c b).listener.ends = false → (c !b).listener.ends = false → c.underway b = 1) := by
  have lock := lockStep_run status honest b
  intro c
  refine ⟨lock.most, fun signal error at' => lock.room at', fun m at' kind => lock.waits_of_answer at' kind,
    fun waits goesOn others => ?_⟩
  have most := lock.most goesOn
  rw [if_pos waits] at most
  exact Nat.le_antisymm most (lock.least waits goesOn others)

end Run

section Worked

attribute [local instance] workedSha512

/-- A node with weight 1 asks a peer with weight 2. -/
theorem connection_lock_step_asking :
    let events := [(true, .start (Worked.tipOfWeight 1)), (true, .ask none), (false, .read)]
    let c := (Connection.established fun _ => ⟨2, 0⟩).run events
    (c true).sync = .waiting ∧ (c false).listener.asks = 1 ∧ c.underway true = 1 := by
  intro events c
  have honest : Honest events := by
    intro event member m
    simp only [events, List.mem_cons, List.not_mem_nil, or_false] at member
    rcases member with rfl | rfl | rfl <;> simp
  exact ⟨rfl, rfl, (connection_lock_step _ honest true).2.2.2 rfl rfl rfl⟩

end Worked

/-! ## Answers that nobody asked for -/

section Flood

variable [Sha512] {e : Side}

/-- `listen` waits for room in the channel, and nobody reads from it. -/
structure Side.Blocked (e : Side) : Prop where
  sync : e.sync = .returned
  listener : e.listener = .signalling .done none
  full : chanCapacity ≤ e.chan.length

/-- Nothing that happens on the connection goes on from there. -/
theorem Side.Blocked.step (blocked : e.Blocked) (event : SideEvent) :
    (e.step event).1.Blocked ∧ (e.step event).1.closed = e.closed := by
  obtain ⟨sync, listener, full⟩ := blocked
  cases event with
  | signal =>
    have no : ¬ e.chan.length < chanCapacity := Nat.not_lt.mpr full
    simp only [Side.step, listener, if_neg no]
    exact ⟨⟨sync, listener, full⟩, trivial⟩
  | forge m => exact ⟨⟨sync, listener, full⟩, rfl⟩
  | announce spec => exact ⟨⟨sync, listener, full⟩, rfl⟩
  | _ =>
    simp only [Side.step, sync, listener]
    exact ⟨⟨sync, listener, full⟩, trivial⟩

theorem Connection.blocked_step {c : Connection} {b : Bool} (blocked : (c b).Blocked) (event : Bool × SideEvent) :
    (c.step event b).Blocked ∧ (c.step event b).closed = (c b).closed := by
  by_cases own : b = event.1
  · subst own
    rw [Connection.step_own]
    exact blocked.step event.2
  · have other : b = !event.1 := Bool.eq_not.mpr own
    subst other
    rw [Connection.step_other]
    exact ⟨⟨blocked.sync, blocked.listener, blocked.full⟩, rfl⟩

theorem Connection.blocked_run {c : Connection} {b : Bool} (blocked : (c b).Blocked) (events : List (Bool × SideEvent)) :
    (c.run events b).Blocked ∧ (c.run events b).closed = (c b).closed :=
  Transition.run_invariant (fun c' : Connection => (c' b).Blocked ∧ (c' b).closed = (c b).closed)
    (fun c' event inv => by
      obtain ⟨blocked', same⟩ := Connection.blocked_step inv.1 event
      exact ⟨blocked', same.trans inv.2⟩) ⟨blocked, rfl⟩ events

/-- An empty list of hashes comes in, and is read and handled. -/
def emptyResponse (b : Bool) (x : HandlerInput) : List (Bool × SideEvent) :=
  [(b, .forge (.getBlockHashesResponse [])), (b, .read), (b, .handle x), (b, .signal)]

/-- What it leaves: a signal, or a listener that waits to send it. -/
theorem Connection.run_emptyResponse {c : Connection} {b : Bool} (listener : (c b).listener = .reading)
    (inbox : (c b).inbox = []) {x : HandlerInput} (decodes : x.decodeError = none) :
    c.run (emptyResponse b x) b =
      if (c b).chan.length < chanCapacity then { c b with chan := (c b).chan ++ [.done] }
      else { c b with listener := .signalling .done none } := by
  have own : ∀ (c : Connection) (event : SideEvent), c.step (b, event) b = ((c b).step event).1 := fun c event =>
    Connection.step_own c (b, event)
  have reacts : react x (c b).lastHash (.getBlockHashesResponse []) = some ⟨(c b).lastHash, none, some .done, none⟩ := by
    simp [react, handleGetBlockHashesResponseMsg, HandlerInput.decoded, decodes, delivered]
  simp only [emptyResponse, Connection.run, Transition.run_cons, Transition.run_nil, own]
  generalize c b = e at *
  obtain ⟨status, sync, _, chan, closed, lastHash, _⟩ := e
  subst listener inbox
  simp only [Side.step, List.nil_append, reacts, Reaction.leads, Listening.after]
  split <;> rfl

/-- `syncNode` has returned, and `listen` is blocked, or has read everything and left `n` signals. -/
def Side.Idle (n : Nat) (e : Side) : Prop :=
  e.Blocked ∨ (e.sync = .returned ∧ e.listener = .reading ∧ e.inbox = [] ∧ n ≤ e.chan.length)

/-- Each empty list leaves a signal, or blocks `listen`. -/
theorem Connection.idle_emptyResponse {c : Connection} {b : Bool} {n : Nat} (idle : (c b).Idle n) {x : HandlerInput}
    (decodes : x.decodeError = none) :
    (c.run (emptyResponse b x) b).closed = (c b).closed ∧ (c.run (emptyResponse b x) b).Idle (n + 1) ∧
      (chanCapacity ≤ n → (c.run (emptyResponse b x) b).Blocked) := by
  rcases idle with blocked | ⟨sync, listener, inbox, signals⟩
  · obtain ⟨blocked', same⟩ := Connection.blocked_run blocked (emptyResponse b x)
    exact ⟨same, Or.inl blocked', fun _ => blocked'⟩
  · rw [Connection.run_emptyResponse listener inbox decodes]
    split
    · rename_i room
      refine ⟨rfl, Or.inr ⟨sync, listener, inbox, ?_⟩, fun full => absurd room (by omega)⟩
      simp only [List.length_append, List.length_singleton]
      omega
    · rename_i full
      have blocked : Side.Blocked { c b with listener := .signalling .done none } := ⟨sync, rfl, Nat.not_lt.mp full⟩
      exact ⟨rfl, Or.inl blocked, fun _ => blocked⟩

/-- **Three answers that nobody asked for block a listener.** When `syncNode` has returned and `listen` has read what came
in, three empty lists of hashes leave `listen` at the channel, whatever happens afterwards: it neither reads nor returns,
and the peer is not unregistered. -/
theorem empty_responses_block (c : Connection) {b : Bool} (returned : (c b).sync = .returned)
    (reading : (c b).listener = .reading) (inbox : (c b).inbox = []) {x : HandlerInput} (decodes : x.decodeError = none)
    (events : List (Bool × SideEvent)) :
    let c' := c.run (emptyResponse b x ++ emptyResponse b x ++ emptyResponse b x ++ events)
    (c' b).listener = .signalling .done none ∧ (c' b).closed = (c b).closed := by
  intro c'
  have idle : (c b).Idle 0 := Or.inr ⟨returned, reading, inbox, Nat.zero_le _⟩
  obtain ⟨same₁, idle₁, -⟩ := Connection.idle_emptyResponse idle decodes
  obtain ⟨same₂, idle₂, -⟩ := Connection.idle_emptyResponse idle₁ decodes
  obtain ⟨same₃, -, block⟩ := Connection.idle_emptyResponse idle₂ decodes
  obtain ⟨blocked, same⟩ := Connection.blocked_run (block (by decide)) events
  have split : c' = Connection.run (((c.run (emptyResponse b x)).run (emptyResponse b x)).run (emptyResponse b x)) events := by
    simp only [c', Connection.run, Transition.run_append]
  rw [split]
  exact ⟨blocked.listener, by rw [same, same₃, same₂, same₁]⟩

end Flood

section Worked

attribute [local instance] workedSha512

/-- A node that need not sync with its peer: the listener is not freed by what either goroutine, or `Run`, does next. -/
theorem empty_responses_block_synced : ∃ x : HandlerInput, x.decodeError = none ∧
    let c := (Connection.established fun _ => ⟨0, 0⟩).run [(true, .start (Worked.tipOfWeight 1))]
    let c' := c.run (emptyResponse true x ++ emptyResponse true x ++ emptyResponse true x ++
      [(true, .receive), (true, .signal), (true, .read), (true, .readError "EOF"), (true, .close)])
    (c' true).listener = .signalling .done none ∧ (c' true).closed = false := by
  obtain ⟨engine, -⟩ := Option.isSome_iff_exists.mp Worked.started
  exact ⟨⟨engine, (System.boot 1 1 [7]).db, none, none, fun _ => .taken null⟩, rfl,
    empty_responses_block _ rfl rfl rfl rfl _⟩

end Worked

end TrustNet
