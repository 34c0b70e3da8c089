import Mathlib.Data.Finset.Card
import Mathlib.Data.Finset.Filter
import TrustNet.Network.PeerRegistry

/-!
# The pager protocol (`protocol/pager/manager.go`)

A network of pagers. Each node keeps a history of the messages that it received and, for
each peer, the set of messages that the peer is known to have. The goroutines of a node
run side by side: a call of `Broadcast` by the application, and the handler of each
message that is read. They are threads between two accesses to what is shared: a message
was looked up in the history, its sender was marked, the page callback was called, and
the peers that `Broadcast` has still to send to.

A message that `Send` writes decodes to itself, and is in flight until it is read; one
that is lost is never read.
-/

namespace TrustNet.Pager
set_option autoImplicit false

/-- `BroadcastTextMsg`. -/
structure BroadcastTextMsg where
  msgId : Byte16
  msgText : String
  deriving DecidableEq

/-- The registered peers of each node. -/
structure Topology (V : Type) where
  peers : V → Finset V
  symm : ∀ v w, w ∈ peers v → v ∈ peers w
  loopless : ∀ v, v ∉ peers v

/-! ## The sets -/

/-- `maxKnownTxs`. -/
def maxKnownTxs : Nat := 1024

/-- `Set.Pop`: the first item that the iteration meets goes. -/
def pop (order : List Byte16) (known : Finset Byte16) : Finset Byte16 :=
  match order.find? (· ∈ known) with
  | some item => known.erase item
  | none => known

/-- `AddTx`. -/
def addTx (order : List Byte16) (known : Finset Byte16) (tx : Byte16) : Finset Byte16 :=
  insert tx (if known.card ≥ maxKnownTxs then pop order (pop order (pop order known)) else known)

/-- A set that is not full keeps what it has. -/
theorem addTx_of_lt (order : List Byte16) {known : Finset Byte16} (tx : Byte16) (space : known.card < maxKnownTxs) :
    addTx order known tx = insert tx known := by
  rw [addTx, if_neg (by omega)]

/-- `HaveISeenIt`: the answer, and the history after it. -/
def haveISeenIt (myHistory : Finset Byte16) (item : Byte16) : Bool × Finset Byte16 :=
  if item ∈ myHistory then (true, myHistory) else (false, insert item myHistory)

/-- `PeerNodesWithMsgNotSeen`. -/
def peerNodesWithMsgNotSeen {V : Type} (peers : Finset V) (known : V → Finset Byte16) (item : Byte16) : Finset V :=
  peers.filter fun w => item ∉ known w

/-! ## The network -/

/-- A message in flight. -/
structure Packet (V : Type) where
  src : V
  dst : V
  msg : BroadcastTextMsg

/-- A call of the page callback; it is given the name of the sender and the text. -/
structure Page (V : Type) where
  node : V
  sender : V
  msg : BroadcastTextMsg

/-- The node and the message id of a call. -/
def Page.key {V : Type} (p : Page V) : V × Byte16 := (p.node, p.msg.msgId)

/-- A goroutine: in `handleBroadcastMsg` after the look at the history, after the mark of the sender and after the
callback, and in `Broadcast` with the peers that are left and the number of those that were sent to. -/
inductive Thread (V : Type) where
  | unseen (sender : V) (msg : BroadcastTextMsg)
  | marked (sender : V) (msg : BroadcastTextMsg)
  | paged (msg : BroadcastTextMsg)
  | sending (msg : BroadcastTextMsg) (rest : Finset V) (count : Nat)

/-- The id of the message that a goroutine is about. -/
def Thread.msgId {V : Type} : Thread V → Byte16
  | .unseen _ msg | .marked _ msg | .paged msg | .sending msg _ _ => msg.msgId

/-- The nodes, the messages in flight, the calls of the callbacks, the results of `Broadcast`, and the messages that
the applications broadcast. -/
structure Network (V : Type) where
  myHistory : V → Finset Byte16
  known : V → V → Finset Byte16
  threads : V → Nat → Option (Thread V)
  flight : List (Packet V)
  pages : List (Page V)
  counts : List (V × Byte16 × Nat)
  originated : List (V × BroadcastTextMsg)

/-- The next access of a goroutine. -/
inductive Event (V : Type) where
  | broadcast (v : V) (k : Nat) (msg : BroadcastTextMsg)
  | receive (i k : Nat)
  | mark (v : V) (k : Nat) (order : List Byte16)
  | page (v : V) (k : Nat)
  | forward (v : V) (k : Nat)
  | send (v : V) (k : Nat) (w : V) (order : List Byte16)
  | done (v : V) (k : Nat)

namespace Network

variable {V : Type} [DecidableEq V]

/-- The nodes before any message. -/
def fresh : Network V := ⟨fun _ => ∅, fun _ _ => ∅, fun _ _ => none, [], [], [], []⟩

/-- Goroutine `k` of `v` goes on as `t`, or ends. -/
def setThread (n : Network V) (v : V) (k : Nat) (t : Option (Thread V)) : Network V :=
  { n with threads := Function.update n.threads v (Function.update (n.threads v) k t) }

/-- `v` marks its peer `w`. -/
def markPeer (n : Network V) (order : List Byte16) (v w : V) (tx : Byte16) : Network V :=
  { n with known := Function.update n.known v (Function.update (n.known v) w (addTx order (n.known v w) tx)) }

/-- The beginning of `Broadcast`: the peers are listed. -/
def broadcast (T : Topology V) (n : Network V) (v : V) (msg : BroadcastTextMsg) : Thread V :=
  .sending msg (peerNodesWithMsgNotSeen (T.peers v) (n.known v) msg.msgId) 0

/-- The beginning of `handleBroadcastMsg`, as goroutine `k`: a message that was seen before is discarded. -/
def handleBroadcastMsg (n : Network V) (k : Nat) (p : Packet V) : Network V :=
  let (seen, myHistory) := haveISeenIt (n.myHistory p.dst) p.msg.msgId
  let n := { n with myHistory := Function.update n.myHistory p.dst myHistory }
  if seen then n else n.setThread p.dst k (some (.unseen p.src p.msg))

/-- One access. -/
def next (T : Topology V) (n : Network V) : Event V → Network V
  | .broadcast v k msg =>
    match n.threads v k with
    | none => { n with originated := (v, msg) :: n.originated }.setThread v k (some (n.broadcast T v msg))
    | some _ => n
  | .receive i k =>
    match n.flight[i]? with
    | none => n
    | some p =>
      match n.threads p.dst k with
      | none => { n with flight := n.flight.eraseIdx i }.handleBroadcastMsg k p
      | some _ => n
  | .mark v k order =>
    match n.threads v k with
    | some (.unseen sender msg) => (n.markPeer order v sender msg.msgId).setThread v k (some (.marked sender msg))
    | _ => n
  | .page v k =>
    match n.threads v k with
    | some (.marked sender msg) => { n with pages := ⟨v, sender, msg⟩ :: n.pages }.setThread v k (some (.paged msg))
    | _ => n
  | .forward v k =>
    match n.threads v k with
    | some (.paged msg) => n.setThread v k (some (n.broadcast T v msg))
    | _ => n
  | .send v k w order =>
    match n.threads v k with
    | some (.sending msg rest count) =>
      if w ∈ rest then
        { n.markPeer order v w msg.msgId with flight := n.flight ++ [Packet.mk v w msg] }.setThread v k
          (some (.sending msg (rest.erase w) (count + 1)))
      else n
    | _ => n
  | .done v k =>
    match n.threads v k with
    | some (.sending msg rest count) =>
      if rest = ∅ then { n with counts := (v, msg.msgId, count) :: n.counts }.setThread v k none else n
    | _ => n

/-! ## What an event can do -/

@[simp] theorem setThread_threads (n : Network V) (v v' : V) (k k' : Nat) (t : Option (Thread V)) :
    (n.setThread v k t).threads v' k' = if v' = v ∧ k' = k then t else n.threads v' k' := by
  simp only [setThread, Function.update_apply]
  by_cases node : v' = v
  · subst node
    simp [Function.update_apply]
  · simp [node]

@[simp] theorem markPeer_known (n : Network V) (order : List Byte16) (v v' w w' : V) (tx : Byte16) :
    (n.markPeer order v w tx).known v' w' =
      if v' = v ∧ w' = w then addTx order (n.known v w) tx else n.known v' w' := by
  simp only [markPeer, Function.update_apply]
  by_cases node : v' = v
  · subst node
    simp [Function.update_apply]
  · simp [node]

/-- The events that change something, with what they find and what they leave. -/
inductive Moves (T : Topology V) (n : Network V) : Event V → Network V → Prop where
  | broadcast (v : V) (k : Nat) (msg : BroadcastTextMsg) (free : n.threads v k = none) :
    Moves T n (.broadcast v k msg)
      ({ n with originated := (v, msg) :: n.originated }.setThread v k (some (n.broadcast T v msg)))
  | discard (i k : Nat) (p : Packet V) (found : n.flight[i]? = some p) (seen : p.msg.msgId ∈ n.myHistory p.dst) :
    Moves T n (.receive i k) { n with flight := n.flight.eraseIdx i }
  | accept (i k : Nat) (p : Packet V) (found : n.flight[i]? = some p) (new : p.msg.msgId ∉ n.myHistory p.dst)
    (free : n.threads p.dst k = none) :
    Moves T n (.receive i k)
      ({ n with
          flight := n.flight.eraseIdx i
          myHistory := Function.update n.myHistory p.dst (insert p.msg.msgId (n.myHistory p.dst)) }.setThread
        p.dst k (some (.unseen p.src p.msg)))
  | mark (v : V) (k : Nat) (order : List Byte16) (sender : V) (msg : BroadcastTextMsg)
    (here : n.threads v k = some (.unseen sender msg)) :
    Moves T n (.mark v k order) ((n.markPeer order v sender msg.msgId).setThread v k (some (.marked sender msg)))
  | page (v : V) (k : Nat) (sender : V) (msg : BroadcastTextMsg) (here : n.threads v k = some (.marked sender msg)) :
    Moves T n (.page v k)
      ({ n with pages := ⟨v, sender, msg⟩ :: n.pages }.setThread v k (some (.paged msg)))
  | forward (v : V) (k : Nat) (msg : BroadcastTextMsg) (here : n.threads v k = some (.paged msg)) :
    Moves T n (.forward v k) (n.setThread v k (some (n.broadcast T v msg)))
  | send (v : V) (k : Nat) (w : V) (order : List Byte16) (msg : BroadcastTextMsg) (rest : Finset V) (count : Nat)
    (here : n.threads v k = some (.sending msg rest count)) (listed : w ∈ rest) :
    Moves T n (.send v k w order)
      ({ n.markPeer order v w msg.msgId with flight := n.flight ++ [Packet.mk v w msg] }.setThread v k
        (some (.sending msg (rest.erase w) (count + 1))))
  | done (v : V) (k : Nat) (msg : BroadcastTextMsg) (count : Nat)
    (here : n.threads v k = some (.sending msg ∅ count)) :
    Moves T n (.done v k) ({ n with counts := (v, msg.msgId, count) :: n.counts }.setThread v k none)

/-- An event changes nothing, or is one of the moves. -/
theorem next_moves (T : Topology V) (n : Network V) (e : Event V) : next T n e = n ∨ Moves T n e (next T n e) := by
  cases e with
  | broadcast v k msg =>
    cases here : n.threads v k with
    | none =>
      simp only [next, here]
      exact Or.inr (.broadcast v k msg here)
    | some t => simp [next, here]
  | receive i k =>
    cases found : n.flight[i]? with
    | none => simp [next, found]
    | some p =>
      cases here : n.threads p.dst k with
      | some t => simp [next, found, here]
      | none =>
        by_cases seen : p.msg.msgId ∈ n.myHistory p.dst
        · have moves := Moves.discard (T := T) i k p found seen
          simpa [next, found, here, handleBroadcastMsg, haveISeenIt, seen] using Or.inr moves
        · have moves := Moves.accept (T := T) i k p found seen here
          simpa [next, found, here, handleBroadcastMsg, haveISeenIt, seen] using Or.inr moves
  | mark v k order =>
    match here : n.threads v k with
    | some (.unseen sender msg) =>
      simp only [next, here]
      exact Or.inr (.mark v k order sender msg here)
    | none | some (.marked ..) | some (.paged ..) | some (.sending ..) => simp [next, here]
  | page v k =>
    match here : n.threads v k with
    | some (.marked sender msg) =>
      simp only [next, here]
      exact Or.inr (.page v k sender msg here)
    | none | some (.unseen ..) | some (.paged ..) | some (.sending ..) => simp [next, here]
  | forward v k =>
    match here : n.threads v k with
    | some (.paged msg) =>
      simp only [next, here]
      exact Or.inr (.forward v k msg here)
    | none | some (.unseen ..) | some (.marked ..) | some (.sending ..) => simp [next, here]
  | send v k w order =>
    match here : n.threads v k with
    | some (.sending msg rest count) =>
      simp only [next, here]
      split
      · rename_i listed
        exact Or.inr (.send v k w order msg rest count here listed)
      · exact Or.inl rfl
    | none | some (.unseen ..) | some (.marked ..) | some (.paged ..) => simp [next, here]
  | done v k =>
    match here : n.threads v k with
    | some (.sending msg rest count) =>
      simp only [next, here]
      split
      · rename_i all
        subst all
        exact Or.inr (.done v k msg count here)
      · exact Or.inl rfl
    | none | some (.unseen ..) | some (.marked ..) | some (.paged ..) => simp [next, here]

/-- What every move keeps, every run keeps. -/
theorem keeps_of_moves {T : Topology V} (Inv : Network V → Prop) {P : Network V → Event V → Prop}
    (moves : ∀ n e n', Inv n → P n e → Moves T n e n' → Inv n') {n : Network V} {events : List (Event V)}
    (start : Inv n) (along : Transition.Along (next T) P n events) : Inv (Transition.run (next T) n events) := by
  refine along.invariant Inv (fun n e inv cond => ?_) start
  rcases next_moves T n e with same | moved
  · rw [same]
    exact inv
  · exact moves n e _ inv cond moved

end Network

end TrustNet.Pager
