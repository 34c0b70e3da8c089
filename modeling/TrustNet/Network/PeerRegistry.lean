import Mathlib.Data.Finset.Erase
import Mathlib.Data.Finset.Insert
import TrustNet.Core.Encoding
import TrustNet.Lib.GoMap
import TrustNet.Lib.Transition

/-!
# The peer registry (`network/platform.go`, `db/peerSetDbInMem.go`)

The platform keeps its peers three times: as nodes in the peer set database, as
application configurations in `peers`, and as a count. A successful handshake adds to all
three and the teardown of the connection removes from all three; `Disconnect` removes from
the database and leaves the rest to the teardown that it asks for.

The database and `peers` are keyed by the hex string of the 64 byte p2p id. The
configuration that `Peers` lists holds the id behind a leading 0x04, and `Disconnect`
prints it with that byte.
-/

namespace TrustNet
set_option autoImplicit false

/-- `core.Byte16`. -/
structure Byte16 where
  bytes : Bytes
  length_eq : bytes.length = 16
  deriving DecidableEq

/-- The errors of the `network` package, by their codes, and those of the application's callbacks. -/
inductive NetworkErr where
  | handshakeFailed (msg : String)
  | notFound (msg : String)
  | application (msg : String)
  deriving DecidableEq, Repr

/-- `AppConfig`. -/
structure AppConfig where
  networkId : Byte16
  nodeId : Bytes
  nodeName : String
  protocolId : Byte16
  deriving DecidableEq

/-- `HandshakeMsg`. -/
structure HandshakeMsg where
  networkId : Byte16
  genesis : Byte64
  protocolId : Byte16
  totalWeight : UInt64
  tipNumeric : UInt64
  deriving DecidableEq

/-- `peerNode`: the peer of a connection and the handshake it sent. -/
structure PeerNode where
  nodeId : Byte64
  name : String
  status : Option HandshakeMsg
  deriving DecidableEq

/-- `Id()`, the p2p id printed in hex. -/
def PeerNode.id (node : PeerNode) : Bytes := bytesToHexString node.nodeId.bytes

/-- What `validateAndAdd` reads of the configuration. -/
structure PeerConfig where
  networkId : Byte16
  genesis : Byte64
  peerValidator : AppConfig → Option String

/-- The fields of `platformManager` that keep its peers. -/
structure PeerRegistry where
  peerDb : AList (fun _ : Bytes => PeerNode)
  peers : AList (fun _ : Bytes => AppConfig)
  peerCount : Int

/-- The configuration that is built for a peer: the leading 0x04 that `discover` strips is put back. -/
def peerConf (handshake : HandshakeMsg) (peer : PeerNode) : AppConfig :=
  { networkId := handshake.networkId, nodeId := 4 :: peer.nodeId.bytes, nodeName := peer.name,
    protocolId := handshake.protocolId }

namespace PeerRegistry

/-- `registerPeer`, with the node that now has its status; `RegisterPeerNode` of the in-memory database never fails. -/
def registerPeer (mgr : PeerRegistry) (peer : PeerNode) (handshake : HandshakeMsg) (conf : AppConfig) :
    PeerRegistry × PeerNode :=
  let peer := { peer with status := some handshake }
  ({ peerDb := mgr.peerDb.insert peer.id peer, peers := mgr.peers.insert peer.id conf, peerCount := mgr.peerCount + 1 },
    peer)

/-- `unregisterPeer`. -/
def unregisterPeer (mgr : PeerRegistry) (node : PeerNode) : PeerRegistry :=
  { peerDb := mgr.peerDb.erase node.id
    peers := mgr.peers.erase node.id
    peerCount := mgr.peerCount - 1 }

/-- `validateAndAdd`; a peer that is added comes back with its status. -/
def validateAndAdd (mgr : PeerRegistry) (config : PeerConfig) (handshake : HandshakeMsg) (peer : PeerNode) :
    PeerRegistry × Except NetworkErr PeerNode :=
  if handshake.networkId ≠ config.networkId then (mgr, .error (.handshakeFailed "network ID does not match"))
  else if handshake.genesis ≠ config.genesis then (mgr, .error (.handshakeFailed "genesis does not match"))
  else
    match config.peerValidator (peerConf handshake peer) with
    | some msg => (mgr, .error (.application msg))
    | none =>
      match mgr.registerPeer peer handshake (peerConf handshake peer) with
      | (mgr, peer) => (mgr, .ok peer)

/-- `handshake`; `received` is the first message of the peer, or why there is none. -/
def handshake (mgr : PeerRegistry) (config : PeerConfig) (received : Except NetworkErr HandshakeMsg) (peer : PeerNode) :
    PeerRegistry × Except NetworkErr PeerNode :=
  match received with
  | .error e => (mgr, .error e)
  | .ok msg => mgr.validateAndAdd config msg peer

/-- `Peers`, in the order in which the map is visited. -/
def listPeers (mgr : PeerRegistry) : List AppConfig := mgr.peers.entries.map (·.2)

/-- `Disconnect`, with the node whose connection p2p is asked to close. -/
def disconnect (mgr : PeerRegistry) (app : AppConfig) : PeerRegistry × Option PeerNode × Option NetworkErr :=
  let id := bytesToHexString app.nodeId
  match mgr.peerDb.lookup id with
  | some node => ({ mgr with peerDb := mgr.peerDb.erase id }, some node, none)
  | none => (mgr, none, some (.notFound "peer not found"))

end PeerRegistry

/-! ## Connections -/

/-- The registry with the p2p side: the connections whose handshake succeeded and that were not torn down, and
those among them that a `Disconnect` has asked to close. -/
structure PeerNetwork where
  mgr : PeerRegistry
  live : AList (fun _ : Bytes => PeerNode)
  closing : Finset Bytes

/-- What happens to the registry. -/
inductive PeerEvent where
  | connect (peer : PeerNode) (received : Except NetworkErr HandshakeMsg)
  | disconnect (app : AppConfig)
  | teardown (id : Bytes)

namespace PeerNetwork

/-- No peers. -/
def start : PeerNetwork := ⟨⟨∅, ∅, 0⟩, ∅, ∅⟩

/-- A peer connects and its handshake is checked. p2p holds one connection per id, so it refuses a second one. -/
def connect (s : PeerNetwork) (config : PeerConfig) (peer : PeerNode) (received : Except NetworkErr HandshakeMsg) :
    PeerNetwork :=
  if (s.live.lookup peer.id).isSome then s
  else
    match s.mgr.handshake config received peer with
    | (mgr, .ok peer) => { s with mgr, live := s.live.insert peer.id peer }
    | (mgr, .error _) => { s with mgr }

/-- One event. -/
def next (config : PeerConfig) (s : PeerNetwork) : PeerEvent → PeerNetwork
  | .connect peer received => s.connect config peer received
  | .disconnect app =>
    match s.mgr.disconnect app with
    | (mgr, some node, _) => { s with mgr, closing := insert node.id s.closing }
    | (mgr, none, _) => { s with mgr }
  | .teardown id =>
    match s.live.lookup id with
    | some node => ⟨s.mgr.unregisterPeer node, s.live.erase id, s.closing.erase id⟩
    | none => s

abbrev run (config : PeerConfig) (s : PeerNetwork) (events : List PeerEvent) : PeerNetwork :=
  Transition.run (next config) s events

end PeerNetwork

/-! ## What the registry describes -/

/-- The entry of `Peers` for a connection. -/
def PeerNode.conf (node : PeerNode) : Option AppConfig := node.status.map fun handshake => peerConf handshake node

/-- `Peers` and the count describe the live connections, and the database describes those that are not being closed. -/
structure PeersConsistent (s : PeerNetwork) : Prop where
  keyed : ∀ id node, s.live.lookup id = some node → node.id = id
  peers : ∀ id, s.mgr.peers.lookup id = (s.live.lookup id).bind PeerNode.conf
  shaken : ∀ id node, s.live.lookup id = some node → node.conf.isSome
  count : s.mgr.peerCount = s.live.keys.length
  database : ∀ id, s.mgr.peerDb.lookup id = if id ∈ s.closing then none else s.live.lookup id
  closing : ∀ id ∈ s.closing, (s.live.lookup id).isSome

namespace PeersConsistent

variable {config : PeerConfig} {s : PeerNetwork}

theorem start : PeersConsistent PeerNetwork.start where
  keyed id node found := by simp [PeerNetwork.start] at found
  peers id := by simp [PeerNetwork.start]
  shaken id node found := by simp [PeerNetwork.start] at found
  count := rfl
  database id := by simp [PeerNetwork.start]
  closing id member := by simp [PeerNetwork.start] at member

/-- A handshake adds the peer, or changes nothing. -/
theorem handshake_cases (config : PeerConfig) (mgr : PeerRegistry) (received : Except NetworkErr HandshakeMsg)
    (peer : PeerNode) :
    (∃ e, mgr.handshake config received peer = (mgr, .error e)) ∨
      ∃ msg, mgr.handshake config received peer =
        (⟨mgr.peerDb.insert peer.id { peer with status := some msg }, mgr.peers.insert peer.id (peerConf msg peer),
          mgr.peerCount + 1⟩, .ok { peer with status := some msg }) := by
  cases received with
  | error e => exact Or.inl ⟨e, rfl⟩
  | ok msg =>
    simp only [PeerRegistry.handshake, PeerRegistry.validateAndAdd]
    split
    · exact Or.inl ⟨_, rfl⟩
    · split
      · exact Or.inl ⟨_, rfl⟩
      · split
        · exact Or.inl ⟨_, rfl⟩
        · exact Or.inr ⟨msg, rfl⟩

/-- A peer that was not connected is added everywhere. -/
theorem added (inv : PeersConsistent s) {peer : PeerNode} (fresh : s.live.lookup peer.id = none) (msg : HandshakeMsg) :
    PeersConsistent ⟨⟨s.mgr.peerDb.insert peer.id { peer with status := some msg },
      s.mgr.peers.insert peer.id (peerConf msg peer), s.mgr.peerCount + 1⟩,
      s.live.insert peer.id { peer with status := some msg }, s.closing⟩ := by
  have open' : peer.id ∉ s.closing := by
    intro member
    have live := inv.closing _ member
    rw [fresh] at live
    cases live
  constructor <;> simp only [GoMap.lookup_insert]
  · intro id node found
    split at found
    · rename_i eq
      cases found
      exact eq.symm
    · exact inv.keyed id node found
  · intro id
    split
    · rfl
    · exact inv.peers id
  · intro id node found
    split at found
    · cases found
      rfl
    · exact inv.shaken id node found
  · rw [GoMap.length_insert _ _ fresh, inv.count]
    omega
  · intro id
    split
    · rename_i eq
      rw [eq, if_neg open']
    · exact inv.database id
  · intro id member
    split
    · rfl
    · exact inv.closing id member

/-- A node that the database has leaves it and is being closed. -/
theorem closed (inv : PeersConsistent s) {id : Bytes} {node : PeerNode} (found : s.mgr.peerDb.lookup id = some node) :
    PeersConsistent ⟨{ s.mgr with peerDb := s.mgr.peerDb.erase id }, s.live, insert node.id s.closing⟩ := by
  rw [inv.database] at found
  split at found
  · cases found
  · have key := inv.keyed id node found
    refine ⟨inv.keyed, inv.peers, inv.shaken, inv.count, fun other => ?_, fun other member => ?_⟩
    · simp only [GoMap.lookup_erase, Finset.mem_insert, key]
      by_cases eq : other = id
      · rw [if_pos eq, if_pos (Or.inl eq)]
      · simp only [eq, if_false, false_or]
        exact inv.database other
    · rcases Finset.mem_insert.mp member with eq | member
      · rw [eq, key, found]
        rfl
      · exact inv.closing other member

/-- The teardown removes a connection everywhere. -/
theorem removed (inv : PeersConsistent s) {id : Bytes} {node : PeerNode} (found : s.live.lookup id = some node) :
    PeersConsistent ⟨s.mgr.unregisterPeer node, s.live.erase id, s.closing.erase id⟩ := by
  have key := inv.keyed id node found
  constructor <;> simp only [PeerRegistry.unregisterPeer, GoMap.lookup_erase, key]
  · intro other node' found'
    split at found'
    · cases found'
    · exact inv.keyed other node' found'
  · intro other
    split
    · rfl
    · exact inv.peers other
  · intro other node' found'
    split at found'
    · cases found'
    · exact inv.shaken other node' found'
  · have count := GoMap.length_erase s.live (a := id) (by rw [found]; rfl)
    rw [inv.count]
    omega
  · intro other
    by_cases eq : other = id
    · simp [eq]
    · simp only [eq, if_false, Finset.mem_erase, ne_eq, not_false_eq_true, true_and]
      exact inv.database other
  · intro other member
    obtain ⟨ne, member⟩ := Finset.mem_erase.mp member
    rw [if_neg ne]
    exact inv.closing other member

/-- One event. -/
theorem next (inv : PeersConsistent s) (event : PeerEvent) : PeersConsistent (s.next config event) := by
  cases event with
  | connect peer received =>
    simp only [PeerNetwork.next, PeerNetwork.connect]
    split
    · exact inv
    · rename_i fresh
      rw [Bool.not_eq_true, Option.isSome_eq_false_iff, Option.isNone_iff_eq_none] at fresh
      rcases handshake_cases config s.mgr received peer with ⟨e, eq⟩ | ⟨msg, eq⟩
      · rw [eq]
        exact inv
      · rw [eq]
        exact inv.added fresh msg
  | disconnect app =>
    simp only [PeerNetwork.next, PeerRegistry.disconnect]
    cases found : s.mgr.peerDb.lookup (bytesToHexString app.nodeId) with
    | none => exact inv
    | some node => exact inv.closed found
  | teardown id =>
    simp only [PeerNetwork.next]
    split
    · rename_i node found
      exact inv.removed found
    · exact inv

/-- Every run. -/
theorem run (config : PeerConfig) (events : List PeerEvent) :
    PeersConsistent (PeerNetwork.run config PeerNetwork.start events) :=
  Transition.run_invariant PeersConsistent (fun _ event inv => inv.next event) start events

end PeersConsistent

/-! ## Entries of `Peers` -/

section Entries

variable {s : PeerNetwork}

theorem mem_listPeers {mgr : PeerRegistry} {c : AppConfig} : c ∈ mgr.listPeers ↔ ∃ id, mgr.peers.lookup id = some c := by
  unfold PeerRegistry.listPeers
  rw [List.mem_map]
  constructor
  · rintro ⟨⟨id, conf⟩, member, rfl⟩
    exact ⟨id, AList.mem_lookup_iff.mpr member⟩
  · rintro ⟨id, found⟩
    exact ⟨⟨id, c⟩, AList.mem_lookup_iff.mp found, rfl⟩

theorem PeersConsistent.sameKeys (inv : PeersConsistent s) (id : Bytes) :
    (s.mgr.peers.lookup id).isSome = (s.live.lookup id).isSome := by
  rw [inv.peers]
  cases live : s.live.lookup id with
  | none => rfl
  | some node => exact inv.shaken id node live

/-- An entry holds the id of its connection behind the leading byte. -/
theorem PeersConsistent.entry (inv : PeersConsistent s) {c : AppConfig} (listed : c ∈ s.mgr.listPeers) :
    ∃ node, s.live.lookup node.id = some node ∧ c.nodeId = 4 :: node.nodeId.bytes := by
  obtain ⟨id, found⟩ := mem_listPeers.mp listed
  rw [inv.peers, Option.bind_eq_some_iff] at found
  obtain ⟨node, live, conf⟩ := found
  obtain ⟨handshake, -, eq⟩ := Option.map_eq_some_iff.mp conf
  refine ⟨node, ?_, by rw [← eq]; rfl⟩
  rw [inv.keyed id node live]
  exact live

/-- `Disconnect` of an entry looks for an id of 65 bytes, and the database has ids of 64 bytes. -/
theorem PeersConsistent.disconnect (inv : PeersConsistent s) {c : AppConfig} (listed : c ∈ s.mgr.listPeers) :
    s.mgr.disconnect c = (s.mgr, none, some (.notFound "peer not found")) := by
  obtain ⟨node, -, nodeId⟩ := inv.entry listed
  have missing : s.mgr.peerDb.lookup (bytesToHexString c.nodeId) = none := by
    rw [inv.database]
    split
    · rfl
    · cases found : s.live.lookup (bytesToHexString c.nodeId) with
      | none => rfl
      | some other =>
        have same : other.nodeId.bytes = 4 :: node.nodeId.bytes := by
          rw [← nodeId]
          exact bytesToHexString_injective (inv.keyed _ _ found)
        have length := congrArg List.length same
        rw [List.length_cons, other.nodeId.length_eq, node.nodeId.length_eq] at length
        omega
  simp only [PeerRegistry.disconnect, missing]

/-- The database has all live connections exactly if none of them is being closed. -/
theorem PeersConsistent.database_iff (inv : PeersConsistent s) :
    (∀ id, s.mgr.peerDb.lookup id = s.live.lookup id) ↔ s.closing = ∅ := by
  constructor
  · intro same
    rw [Finset.eq_empty_iff_forall_notMem]
    intro id member
    have live := inv.closing id member
    rw [← same, inv.database, if_pos member] at live
    cases live
  · intro quiet id
    rw [inv.database, quiet, if_neg (Finset.notMem_empty id)]

end Entries

/-- **What the registry describes.** After any handshakes, `Disconnect` calls and teardowns, `Peers` and the count
describe the live connections; the database does exactly if no `Disconnect` that found its peer waits for the teardown.
`Disconnect` of an entry of `Peers` never finds the peer and changes nothing. -/
theorem peer_registry_consistent (config : PeerConfig) (events : List PeerEvent) :
    let s := PeerNetwork.run config PeerNetwork.start events
    (∀ id, s.mgr.peers.lookup id = (s.live.lookup id).bind PeerNode.conf) ∧
      s.mgr.listPeers.length = s.live.keys.length ∧ s.mgr.peerCount = s.live.keys.length ∧
      ((∀ id, s.mgr.peerDb.lookup id = s.live.lookup id) ↔ s.closing = ∅) ∧
      ∀ c ∈ s.mgr.listPeers, s.mgr.disconnect c = (s.mgr, none, some (.notFound "peer not found")) := by
  intro s
  have inv : PeersConsistent s := PeersConsistent.run config events
  refine ⟨inv.peers, ?_, inv.count, inv.database_iff, fun c listed => inv.disconnect listed⟩
  have size : s.mgr.listPeers.length = s.mgr.peers.keys.length := by
    simp [PeerRegistry.listPeers, AList.keys, List.keys]
  rw [size]
  exact GoMap.length_keys_eq _ _ inv.sameKeys

section Worked

/-- A network in which every application is welcome. -/
def Worked.peerConfig : PeerConfig := ⟨⟨List.replicate 16 0, rfl⟩, null, fun _ => none⟩

def Worked.greeting : HandshakeMsg := ⟨⟨List.replicate 16 0, rfl⟩, null, ⟨List.replicate 16 0, rfl⟩, 0, 0⟩

def Worked.peer : PeerNode := ⟨null, "peer", none⟩

/-- One peer connects. -/
def Worked.onePeer : PeerNetwork :=
  PeerNetwork.run Worked.peerConfig PeerNetwork.start [.connect Worked.peer (.ok Worked.greeting)]

theorem Worked.onePeer_listed : peerConf Worked.greeting Worked.peer ∈ Worked.onePeer.mgr.listPeers ∧
    Worked.onePeer.closing = ∅ := by decide +kernel

/-- Its entry is listed, but `Disconnect` of the entry does not find the peer and changes nothing. -/
theorem Worked.listed_peer_not_found :
    ∃ c ∈ Worked.onePeer.mgr.listPeers, Worked.onePeer.closing = ∅ ∧
      Worked.onePeer.mgr.disconnect c = (Worked.onePeer.mgr, none, some (.notFound "peer not found")) := by
  obtain ⟨listed, quiet⟩ := Worked.onePeer_listed
  refine ⟨_, listed, quiet, ?_⟩
  have missing : Worked.onePeer.mgr.peerDb.lookup (bytesToHexString (peerConf Worked.greeting Worked.peer).nodeId) = none := by
    decide +kernel
  simp only [PeerRegistry.disconnect, missing]

/-- The application then gives `Disconnect` the bare id. The peer leaves the database only. -/
def Worked.closingPeer : List PeerEvent :=
  [.connect Worked.peer (.ok Worked.greeting),
    .disconnect { peerConf Worked.greeting Worked.peer with nodeId := Worked.peer.nodeId.bytes }]

theorem peer_registry_consistent_closing :
    let s := PeerNetwork.run Worked.peerConfig PeerNetwork.start Worked.closingPeer
    s.mgr.peerCount = 1 ∧ s.mgr.listPeers.length = 1 ∧ (¬∀ id, s.mgr.peerDb.lookup id = s.live.lookup id) ∧
      ∀ c ∈ s.mgr.listPeers, s.mgr.disconnect c = (s.mgr, none, some (.notFound "peer not found")) := by
  intro s
  obtain ⟨-, listed, count, database, unknown⟩ := peer_registry_consistent Worked.peerConfig Worked.closingPeer
  have closing : s.closing ≠ ∅ ∧ s.live.keys.length = 1 := by decide +kernel
  exact ⟨by rw [count, closing.2]; rfl, by rw [listed, closing.2], fun same => closing.1 (database.mp same), unknown⟩

end Worked

end TrustNet
