import Petrachor.Common
import Mathlib.Data.List.Destutter

/-!
# The node table

Known nodes are objects that `m_nodes` and whoever else uses them share; the buckets refer to them weakly, so that an
entry of a bucket expires with the last reference to its node. Objects are numbered in the order they are made. Maps
without an order are lists of their entries. Times are in nanoseconds, and no time passes within a call.
-/

namespace Petrachor

abbrev NodeID := BitVec 512

inductive IPAddress where
  | v4 (a : BitVec 32)
  | v6 (a : BitVec 128)
  deriving DecidableEq, Repr

namespace IPAddress

def is_unspecified : IPAddress → Bool
  | v4 a => a = 0
  | v6 a => a = 0

def isPrivateAddress : IPAddress → Bool
  | v4 a =>
    let b := asBytes 4 a
    (b.getD 0 0 = 10 || b.getD 0 0 = 127) || (b.getD 0 0 = 172 && (16 ≤ b.getD 1 0 && b.getD 1 0 ≤ 31)) ||
      (b.getD 0 0 = 192 && b.getD 1 0 = 168)
  | v6 a =>
    let b := asBytes 16 a
    (b.getD 0 0 = 0xfd && b.getD 1 0 = 0) || (b.take 15 = List.replicate 15 0 && (b.getD 15 0 = 0 || b.getD 15 0 = 1))

def isLocalHostAddress (a : IPAddress) : Bool := a ∈ [v4 0x7f000001, v4 0, v6 1, v6 0]

def isPublicAddress (a : IPAddress) : Bool := !(a.isPrivateAddress || a.isLocalHostAddress)

end IPAddress

/-- A UDP endpoint. -/
structure UDPEndpoint where
  address : IPAddress
  port : BitVec 16
  deriving DecidableEq, Repr

structure NodeIPEndpoint where
  address : IPAddress
  udpPort : BitVec 16
  tcpPort : BitVec 16
  deriving DecidableEq, Repr

/-- What the table is given: the hash function, and whether local addresses are allowed. -/
structure Discovery where
  sha3 : Bytes → H256
  test_allowLocal : Bool

namespace NodeIPEndpoint

def isSet (e : NodeIPEndpoint) : Bool := !e.address.is_unspecified && 0 < e.udpPort && 0 < e.tcpPort

def isAllowed (c : Discovery) (e : NodeIPEndpoint) : Bool :=
  if c.test_allowLocal then !e.address.is_unspecified else e.address.isPublicAddress

def udp (e : NodeIPEndpoint) : UDPEndpoint := ⟨e.address, e.udpPort⟩

end NodeIPEndpoint

def UDPEndpoint.node (e : UDPEndpoint) : NodeIPEndpoint := ⟨e.address, e.port, e.port⟩

/-- A node as it is known from elsewhere. -/
structure Node where
  id : NodeID
  endpoint : NodeIPEndpoint
  deriving DecidableEq, Repr

structure NodeEntry where
  id : NodeID
  endpoint : NodeIPEndpoint
  distance : ℕ
  pending : Bool
  deriving DecidableEq, Repr

/-- The entry with the endpoint that the node was heard from. -/
def NodeEntry.seenAt (n : NodeEntry) (endpoint : UDPEndpoint) : NodeEntry :=
  { n with endpoint := { n.endpoint with address := endpoint.address, udpPort := endpoint.port } }

inductive NodeTableEventType where
  | NodeEntryAdded
  | NodeEntryDropped
  deriving DecidableEq, Repr

structure EvictionTimeout where
  newNodeID : NodeID
  evictedTimePoint : ℕ
  deriving DecidableEq, Repr

/-- What is sent: a ping with the endpoint it comes from, or the answer to one. -/
inductive Datagram where
  | PingNode (source destination : NodeIPEndpoint)
  | Pong (destination : NodeIPEndpoint)
  deriving DecidableEq, Repr

structure NodeTable where
  m_node : Node
  /-- The objects made so far. -/
  entries : List NodeEntry
  /-- The objects that someone else has a reference to. -/
  held : List ℕ
  m_nodes : List (NodeID × ℕ)
  m_state : ℕ → List ℕ
  m_evictions : List (NodeID × EvictionTimeout)
  m_pubkDiscoverPings : List IPAddress
  m_findNodeTimeout : List (NodeID × ℕ)
  hasHandler : Bool
  events : List (NodeID × NodeTableEventType)
  isOpen : Bool
  sent : List Datagram
  /-- When the scheduled checks are due. -/
  checks : List ℕ
  now : ℕ

namespace NodeTable

def s_bits : ℕ := 256
def s_bins : ℕ := s_bits - 1
def s_bucketSize : ℕ := 16

def c_evictionCheckInterval : ℕ := 75 * 1000000
def c_reqTimeout : ℕ := 300 * 1000000

/-- How often a number can be halved; after 255 times nothing is left of it. -/
def halvings : ℕ → U256 → ℕ
  | 0, _ => 0
  | n + 1, d => if d >>> 1 = 0 then 0 else halvings n (d >>> 1) + 1

def distance (c : Discovery) (a b : NodeID) : ℕ := halvings 255 (c.sha3 (asBytes 64 a) ^^^ c.sha3 (asBytes 64 b))

/-! ## The objects -/

def nodeEntry (t : NodeTable) (id : NodeID) : Option ℕ := t.m_nodes.lookup id

/-- An object that there is. -/
def entry (t : NodeTable) (p : ℕ) : NodeEntry := t.entries.getD p ⟨0, ⟨.v4 0, 0, 0⟩, 0, true⟩

def setEntry (t : NodeTable) (p : ℕ) (e : NodeEntry) : NodeTable := { t with entries := t.entries.set p e }

/-- Some reference to the object is left. -/
def live (t : NodeTable) (p : ℕ) : Bool := t.m_nodes.any (·.2 = p) || t.held.contains p

def lock (t : NodeTable) (p : ℕ) : Option ℕ := if t.live p then some p else none

/-- `m_nodes[id] = make_shared<NodeEntry>(..)`. -/
def makeNode (c : Discovery) (t : NodeTable) (node : Node) (pending : Bool) : NodeTable :=
  { t with
    entries := t.entries ++ [⟨node.id, node.endpoint, distance c t.m_node.id node.id, pending⟩]
    m_nodes := (node.id, t.entries.length) :: t.m_nodes.filter (·.1 ≠ node.id) }

def ping (t : NodeTable) (dest : NodeIPEndpoint) : NodeTable :=
  { t with sent := t.sent ++ [.PingNode t.m_node.endpoint dest] }

def appendEvent (t : NodeTable) (id : NodeID) (e : NodeTableEventType) : NodeTable :=
  if t.hasHandler then { t with events := t.events ++ [(id, e)] } else t

/-! ## The buckets -/

/-- The place in `m_state`; there is none before the first. -/
def bucket_UNSAFE (t : NodeTable) (p : ℕ) : Option ℕ :=
  if (t.entry p).distance = 0 then none else some ((t.entry p).distance - 1)

def setBucket (t : NodeTable) (i : ℕ) (nodes : List ℕ) : NodeTable :=
  { t with m_state := Function.update t.m_state i nodes }

/-- `doCheckEvictions`: the check runs later. -/
def doCheckEvictions (t : NodeTable) : NodeTable := { t with checks := t.checks ++ [t.now + c_evictionCheckInterval] }

def evict (t : NodeTable) (leastSeen new : ℕ) : NodeTable :=
  if !t.isOpen then t
  else
    let id := (t.entry leastSeen).id
    let t := if (t.m_evictions.lookup id).isSome then t
      else { t with m_evictions := t.m_evictions ++ [(id, ⟨(t.entry new).id, t.now⟩)] }
    let t := if t.m_evictions.length = 1 then t.doCheckEvictions else t
    t.ping (t.entry leastSeen).endpoint

/-- The `remove_if` of `noteActiveNode`: what its predicate returns is what it has noted so far. -/
def removeIf (node : ℕ) : Bool → List ℕ → List ℕ × Bool
  | removed, [] => ([], removed)
  | removed, n :: nodes =>
    let removed := removed || n = node
    let (kept, removed') := removeIf node removed nodes
    (if removed then kept else n :: kept, removed')

def noteActiveNode (c : Discovery) (t : NodeTable) (pubk : NodeID) (endpoint : UDPEndpoint) : Option NodeTable :=
  if pubk = t.m_node.id || !endpoint.node.isAllowed c then some t
  else
    match t.nodeEntry pubk with
    | none => some t
    | some node =>
      let n := t.entry node
      if n.pending then some t
      else do
        let t := t.setEntry node (n.seenAt endpoint)
        let s ← t.bucket_UNSAFE node
        let (nodes, removed) := removeIf node false (t.m_state s)
        if s_bucketSize ≤ nodes.length then
          match nodes.head?.bind t.lock with
          | some contested => return (t.setBucket s nodes).evict contested node
          | none =>
            let t := t.setBucket s (nodes.tail ++ [node])
            return if !removed then t.appendEvent n.id .NodeEntryAdded else t
        else
          let t := t.setBucket s (nodes ++ [node])
          return if !removed then t.appendEvent n.id .NodeEntryAdded else t

def dropNode (t : NodeTable) (p : ℕ) : Option NodeTable := do
  let s ← t.bucket_UNSAFE p
  return (t.setBucket s ((t.m_state s).filter (· ≠ p))).appendEvent (t.entry p).id .NodeEntryDropped

inductive NodeRelation where
  | Unknown
  | Known
  deriving DecidableEq, Repr

def addNode (c : Discovery) (t : NodeTable) (node : Node) : NodeRelation → Option NodeTable
  | .Known => (t.makeNode c node false).noteActiveNode c node.id node.endpoint.udp
  | .Unknown =>
    if !node.endpoint.isSet then some t
    else if node.id = 0 then
      some ({ t with m_pubkDiscoverPings := node.endpoint.address :: t.m_pubkDiscoverPings }.ping node.endpoint)
    else if (t.nodeEntry node.id).isSome then some t
    else some ((t.makeNode c node true).ping node.endpoint)

/-! ## Datagrams -/

/-- A datagram that was decoded. -/
inductive Packet where
  | Pong (destination : NodeIPEndpoint)
  | Neighbours (neighbours : List Node)
  | FindNode
  | PingNode (source : NodeIPEndpoint)
  deriving DecidableEq, Repr

/-- `pending = false`. -/
def setActive (t : NodeTable) (id : NodeID) : NodeTable :=
  match t.nodeEntry id with
  | some p => t.setEntry p { t.entry p with pending := false }
  | none => t

/-- The eviction that a pong of the node ends. -/
def evictionOf (t : NodeTable) (sourceid : NodeID) : Option EvictionTimeout :=
  (t.m_evictions.lookup sourceid).filter (t.now < ·.evictedTimePoint)

/-- Our own endpoint, as the one we answered sees it. -/
def learnEndpoint (c : Discovery) (t : NodeTable) (destination : NodeIPEndpoint) : NodeTable :=
  let ours := t.m_node.endpoint
  let address := if (!ours.isSet || !ours.isAllowed c) && destination.address.isPublicAddress then destination.address
    else ours.address
  { t with m_node := { t.m_node with endpoint := ⟨address, destination.udpPort, ours.tcpPort⟩ } }

/-- A pong, and whether its sender is to be noted: it is not if nobody asked for the pong. -/
def onPong (c : Discovery) (t : NodeTable) (source : UDPEndpoint) (sourceid : NodeID) (destination : NodeIPEndpoint) :
    Option (NodeTable × Bool) :=
  match t.evictionOf sourceid with
  | some evictionEntry => do
    let t := { t with m_evictions := t.m_evictions.filter (·.1 ≠ sourceid) }
    let t ← match t.nodeEntry evictionEntry.newNodeID with
      | some n => t.dropNode n
      | none => some t
    return ((t.setActive sourceid).learnEndpoint c destination, true)
  | none =>
    if (t.nodeEntry sourceid).isSome then some ((t.setActive sourceid).learnEndpoint c destination, true)
    else if source.address ∉ t.m_pubkDiscoverPings then some (t, false)
    else do
      let t := { t with m_pubkDiscoverPings := t.m_pubkDiscoverPings.filter (· ≠ source.address) }
      let t ← t.addNode c ⟨sourceid, source.node⟩ .Unknown
      return (t.learnEndpoint c destination, true)

/-- The nodes that a peer answers a `FindNode` with. -/
def onNeighbours (c : Discovery) (t : NodeTable) (sourceid : NodeID) (neighbours : List Node) : Option NodeTable :=
  let inTime (f : NodeID × ℕ) : Bool := t.now - f.2 < c_reqTimeout
  let expected := t.m_findNodeTimeout.any fun f => f.1 = sourceid && inTime f
  let t := { t with m_findNodeTimeout := t.m_findNodeTimeout.filter fun f => !(f.1 = sourceid && !inTime f) }
  if expected then neighbours.foldlM (fun t n => t.addNode c n .Unknown) t else some t

def onReceived (c : Discovery) (t : NodeTable) (source : UDPEndpoint) (sourceid : NodeID) : Packet → Option NodeTable
  | .Pong destination => do
    let (t, noted) ← t.onPong c source sourceid destination
    if noted then t.noteActiveNode c sourceid source else some t
  | .Neighbours neighbours => do
    let t ← t.onNeighbours c sourceid neighbours
    t.noteActiveNode c sourceid source
  | .FindNode => t.noteActiveNode c sourceid source
  | .PingNode endpoint => do
    let endpoint := { endpoint with address := source.address, udpPort := source.port }
    let t ← t.addNode c ⟨sourceid, endpoint⟩ .Unknown
    { t with sent := t.sent ++ [Datagram.Pong endpoint] }.noteActiveNode c sourceid source

/-- The nodes that a check drops. -/
def dropsOf (t : NodeTable) : List ℕ :=
  t.m_evictions.filterMap fun e =>
    if c_reqTimeout < t.now - e.2.evictedTimePoint then t.nodeEntry e.2.newNodeID else none

/-- A check that was scheduled. -/
def checkEvictions (t : NodeTable) : Option NodeTable := do
  let evictionsRemain : Bool := 0 < t.m_evictions.length - t.dropsOf.length
  let t ← (t.dropsOf.destutter (· ≠ ·)).foldlM dropNode t
  return if evictionsRemain then t.doCheckEvictions else t

/-! ## Runs -/

inductive Step where
  | addNode (node : Node) (relation : NodeRelation)
  | noteActiveNode (pubk : NodeID) (endpoint : UDPEndpoint)
  | dropNode (p : ℕ)
  | receive (source : UDPEndpoint) (sourceid : NodeID) (packet : Packet)
  /-- A node that is asked for its neighbours; `doDiscover` keeps it for the rest of its rounds. -/
  | findNode (p : ℕ)
  /-- Another reference to a node, or one less. -/
  | hold (p : ℕ)
  | release (p : ℕ)
  /-- The timer of a check. -/
  | check (i : ℕ)
  | wait (time : ℕ)
  | disconnect
  deriving DecidableEq, Repr

/-- There is no step where the source would read or write in front of the buckets. -/
def step (c : Discovery) (t : NodeTable) : Step → Option NodeTable
  | .addNode node relation => t.addNode c node relation
  | .noteActiveNode pubk endpoint => t.noteActiveNode c pubk endpoint
  | .dropNode p => if t.live p then t.dropNode p else none
  | .receive source sourceid packet => t.onReceived c source sourceid packet
  | .findNode p =>
    if t.live p then
      some { t with held := p :: t.held, m_findNodeTimeout := t.m_findNodeTimeout ++ [((t.entry p).id, t.now)] }
    else none
  | .hold p => if t.live p then some { t with held := p :: t.held } else none
  | .release p => some { t with held := t.held.erase p }
  | .check i =>
    match t.checks[i]? with
    | some due => if due ≤ t.now then { t with checks := t.checks.eraseIdx i }.checkEvictions else none
    | none => none
  | .wait time => some { t with now := t.now + time }
  | .disconnect => some { t with isOpen := false }

/-- A table that was just made. -/
def init (node : Node) (hasHandler isOpen : Bool) (now : ℕ) : NodeTable :=
  ⟨node, [], [], [], fun _ => [], [], [], [], hasHandler, [], isOpen, [], [], now⟩

end NodeTable

end Petrachor
