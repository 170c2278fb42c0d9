import BenTorrent.Map.Retain
import BenTorrent.Peer.Io.Store
import BenTorrent.Peer.State.Processor
import BenTorrent.Sync.Channel
import BenTorrent.Sync.Mutex

/-!
This module contains the loop of `TorrentProcessor::start` with all that runs next to it: the
handlers it polls, the file handler and `run_connection` of each peer. A task runs until it waits
for a lock, a channel or the file; the order in which they take turns is part of the events.
-/

open Rust

inductive Party where
  | mainLoop
  | handler (c : Nat)
  | runConnection
  deriving DecidableEq

/--
Where `run_connection` stands. In its select it stops reading once the stream has ended.
-/
inductive Link where
  | selecting (readDone : Bool)
  | sending (msg : Messages)
  | ended
  deriving DecidableEq

inductive Job where
  | message (msg : Messages)
  | reply (reply : WriteReply)
  deriving DecidableEq

/--
Where the handler of a connection stands, from the message of the new connection until the loop has
forgotten the peer.
-/
inductive Handler where
  | queued
  | accepted
  | receiving
  | writing (index begin : UInt32) (block : Bytes)
  | failed
  | locking (job : Job)
  | signalling (msg : Messages)
  | waking (msg : InternalStateMessage)
  | finished
  | closed
  deriving DecidableEq

namespace Handler

/--
The future is done or was never made, and its ends of the channels are dropped.
-/
def IsGone (handler : Handler) : Prop :=
  handler = .finished ∨ handler = .closed

instance (handler : Handler) : Decidable handler.IsGone :=
  inferInstanceAs (Decidable (_ ∨ _))

def ofMessage : Messages → Handler
  | .keepAlive => .receiving
  | .cancel _ _ _ => .receiving
  | .piece index begin block => .writing index begin block
  | msg => .locking (.message msg)

end Handler

structure PeerConnection where
  peerId : PeerId
  inbound : Channel Party Messages
  outbound : Channel Party Messages
  link : Link
  handler : Handler
  deriving DecidableEq

/--
Where the loop stands: in the select, or in an arm of it at the step that comes next.
-/
inductive Arm where
  | select
  | initConnection (c : Nat)
  | greeting (c : Nat) (msgs : List Messages)
  | closing (c : Nat)
  | announcing (pieceId : UInt32) (peerIds : List PeerId)
  | queueing (req : PeerRequestedPiece)
  | computing
  | dispatching (requests : List PeerRequestedPiece)
  | dequeueing
  | answering (dequed : List PeerRequestedPiece)
  | sending (peerId : PeerId) (msg : Messages) (dequed : List PeerRequestedPiece)
  | unchoking
  | choking (combinedPeers : List (PeerId × Bool))
  | expiring
  | wakingUp
  deriving DecidableEq

structure TorrentProcessor (σ : Type u) where
  torrentState : TorrentState
  -- a field of the torrent state in the source
  outstandingPeerRequests : List PeerRequestedPiece
  io : σ
  lock : Mutex Party
  wakeUp : Channel Party InternalStateMessage
  peerToTx : Finmap fun _ : PeerId => Nat
  connections : List PeerConnection
  arm : Arm
  deriving DecidableEq

inductive LinkEvent where
  | read (msg : Messages)
  | resume
  | eof
  | write
  | writeFails
  | hangUp
  deriving DecidableEq

inductive StartEvent where
  | connect (peerId : PeerId)
  | link (c : Nat) (event : LinkEvent)
  | io (c : Nat)
  | poll (c : Nat)
  | accept (c : Nat)
  | recvWakeUp (peerIds : List PeerId)
  | tick
  | advance
  | compute (availiablePieceToPeers : List (UInt32 × List PeerId)) (now : UInt32 → Nat)
  | unchoke (newPotentialPeers peersThatLeft : List PeerId)
  | expire (now : Nat)

inductive Signal where
  | sent (c : Nat) (msg : Messages)
  | woke (w : Party) (msg : InternalStateMessage)
  | took (msg : InternalStateMessage)
  | written (index : UInt32)
  | expired (requests : List PeerRequestedPiece)
  deriving DecidableEq

abbrev StartTrace := List (StartEvent × List Signal)

inductive Delivery where
  | delivered
  | pending
  | closed
  deriving DecidableEq

/--
What is left for a handler to do once it has handled its job.
-/
inductive Next where
  | receive
  | wake (msg : InternalStateMessage)
  | signal (msg : Messages)
  deriving DecidableEq

namespace TorrentState

def chokes (state : TorrentState) (peerId : PeerId) : Bool :=
  match state.getInternalPeerState peerId with
  | some peer => peer.choked
  | none => true

def peersThatAreInterested (state : TorrentState) (interested : Bool) : Finset PeerId :=
  if !interested then
    state.peerSet \ state.peersInterested
  else
    state.peerSet ∩ state.peersInterested

def signalInterest : Option Bool × TorrentState → Next × TorrentState
  | (some interest, state) => (.signal (FlagMessages.interestMsg interest), state)
  | (none, state) => (.wake .wakeup, state)

def handleJob (state : TorrentState) (peerId : PeerId) : Job → Next × TorrentState
  | .message (.flag flag) => (.wake .wakeup, state.handleFlag peerId flag)
  | .message (.have pieceIndex) => signalInterest (state.addPiecesForPeer peerId [pieceIndex])
  | .message (.bitField bitfield) =>
    signalInterest (state.addPiecesForPeer peerId (BitFieldReader.piecesPresent ⟨bitfield⟩))
  | .message (.request index begin length) =>
    if state.chokes peerId then
      (.receive, state)
    else
      (.wake (.peerRequestedPiece { peerId, index, begin, length }), state)
  -- the other messages are handled without the lock
  | .message _ => (.receive, state)
  | .reply reply =>
    (.wake (if reply.finished then .pieceComplete reply.index else .wakeup),
      { state with pieceBlockTracking := state.pieceBlockTracking.handleWritten reply })

def unchokedPeers (state : TorrentState) : Finset PeerId :=
  state.peerSet.filter fun peerId => !state.chokes peerId

def stationaryPeerSet (state : TorrentState) : Finset PeerId :=
  state.unchokedPeers ∪ state.peersThatAreInterested true

/--
The peers whose choke flag changes, in the orders in which the two sets are iterated.
-/
def combinedPeers (state : TorrentState) (newPotentialPeers peersThatLeft : List PeerId)
    : List (PeerId × Bool) :=
  let idealStationaryChokeSize := 4
  let stationaryPeerSetLen := state.stationaryPeerSet.card
  if state.peersThatAreInterested true ≠ ∅ ∧ stationaryPeerSetLen < idealStationaryChokeSize then
    (newPotentialPeers.take (idealStationaryChokeSize - stationaryPeerSetLen)).map (·, false)
      ++ peersThatLeft.map (·, true)
  else
    []

def setChoked (state : TorrentState) (peerId : PeerId) (choked : Bool) : TorrentState :=
  match state.peers.lookup peerId with
  | some peer => { state with peers := state.peers.insert peerId { peer with choked } }
  | none => state

end TorrentState

def wakeUpSize : Nat := 10

namespace TorrentProcessor

variable {σ : Type u}

def new (config : Config) (torrent : V1Torrent) (io : σ) : TorrentProcessor σ where
  torrentState := TorrentState.new torrent.info.pieces config.maxOutstandingRequests
  outstandingPeerRequests := []
  io := io
  lock := .new
  wakeUp := .new wakeUpSize
  peerToTx := ∅
  connections := []
  arm := .select

def tracker (p : TorrentProcessor σ) : PieceBlockTracker :=
  p.torrentState.pieceBlockTracking

def setTracker (p : TorrentProcessor σ) (tracker : PieceBlockTracker) : TorrentProcessor σ :=
  { p with torrentState := { p.torrentState with pieceBlockTracking := tracker } }

def update (p : TorrentProcessor σ) (c : Nat) (f : PeerConnection → PeerConnection) : TorrentProcessor σ :=
  { p with connections := p.connections.modify c f }

def setHandler (p : TorrentProcessor σ) (c : Nat) (handler : Handler) : TorrentProcessor σ :=
  p.update c fun conn => { conn with handler }

def setArm (p : TorrentProcessor σ) (arm : Arm) : TorrentProcessor σ :=
  { p with arm }

def unlock (p : TorrentProcessor σ) : TorrentProcessor σ :=
  { p with lock := p.lock.unlock }

def deliver (p : TorrentProcessor σ) (w : Party) (c : Nat) (msg : Messages)
    : Delivery × TorrentProcessor σ :=
  match p.connections[c]? with
  | none => (.closed, p)
  | some conn =>
    -- the receiver is dropped with the connection
    if conn.link = .ended then
      (.closed, p)
    else
      match conn.outbound.send w msg with
      | (true, outbound) => (.delivered, p.update c fun conn => { conn with outbound })
      | (false, outbound) => (.pending, p.update c fun conn => { conn with outbound })

section handler

def finish (p : TorrentProcessor σ) (c : Nat) : TorrentProcessor σ :=
  -- the select that polled the handler goes on with the arm of its result
  (p.setHandler c .finished).setArm (.closing c)

def wake (p : TorrentProcessor σ) (c : Nat) (msg : InternalStateMessage) : TorrentProcessor σ :=
  let res := p.wakeUp.send (.handler c) msg
  { p.setHandler c (if res.1 then .receiving else .waking msg) with wakeUp := res.2 }

def signal (p : TorrentProcessor σ) (c : Nat) (msg : Messages)
    : List Signal × TorrentProcessor σ :=
  -- the lock is kept until the message is in the channel
  match p.deliver (.handler c) c msg with
  | (.delivered, p) => ([.sent c msg, .woke (.handler c) .wakeup], p.unlock.wake c .wakeup)
  | (.pending, p) => ([], p.setHandler c (.signalling msg))
  | (.closed, p) => ([], p.unlock.finish c)

def proceed (p : TorrentProcessor σ) (c : Nat) : Next → List Signal × TorrentProcessor σ
  | .receive => ([], p.unlock.setHandler c .receiving)
  | .wake msg => ([.woke (.handler c) msg], p.unlock.wake c msg)
  | .signal msg => p.signal c msg

def poll (p : TorrentProcessor σ) (c : Nat) : Option (List Signal × TorrentProcessor σ) :=
  match p.connections[c]? with
  | none => none
  | some conn =>
    match conn.handler with
    | .receiving =>
      match conn.inbound.recv with
      | some (msg, inbound) =>
        some ([], p.update c fun conn => { conn with inbound, handler := .ofMessage msg })
      | none => if conn.link = .ended then some ([], p.finish c) else none
    | .failed => some ([], p.finish c)
    | .locking job =>
      match p.lock.lock (.handler c) with
      | (true, lock) =>
        let (next, torrentState) := p.torrentState.handleJob conn.peerId job
        some ({ p with lock, torrentState }.proceed c next)
      | (false, lock) => some ([], { p with lock })
    | .signalling msg => some (p.signal c msg)
    | .waking msg => some ([], p.wake c msg)
    | _ => none

def write (torrentIo : TorrentIo σ) (p : TorrentProcessor σ) (c : Nat)
    : Option (List Signal × TorrentProcessor σ) :=
  match p.connections[c]? with
  | none => none
  | some conn =>
    match conn.handler with
    | .writing index begin block =>
      match torrentIo.writePiece p.io index begin block with
      | (.ok finished, io) =>
        some (if finished then [.written index] else [],
          { p.setHandler c (.locking (.reply { index, begin, finished })) with io })
      | (.error _, io) => some ([], { p.setHandler c .failed with io })
    | _ => none

end handler

section link

def connect (config : Config) (p : TorrentProcessor σ) (peerId : PeerId)
    : Option (TorrentProcessor σ) :=
  -- the channel of the new connections has one slot
  if p.connections.any fun conn => conn.handler = .queued then
    none
  else
    let conn := {
      peerId
      inbound := .new config.peerRxSize
      outbound := .new config.peerTxSize
      link := .selecting false
      handler := .queued
    }
    some { p with connections := p.connections ++ [conn] }

def sendToProcessor (conn : PeerConnection) (msg : Messages) : PeerConnection :=
  if conn.handler.IsGone then
    { conn with link := .ended }
  else
    let res := conn.inbound.send .runConnection msg
    { conn with inbound := res.2, link := if res.1 then .selecting false else .sending msg }

def runConnection (p : TorrentProcessor σ) (c : Nat) (conn : PeerConnection)
    : LinkEvent → Option PeerConnection
  | .read msg => if conn.link = .selecting false then some (sendToProcessor conn msg) else none
  | .resume =>
    match conn.link with
    | .sending msg => some (sendToProcessor conn msg)
    | _ => none
  | .eof =>
    if conn.link = .selecting false then some { conn with link := .selecting true } else none
  | .write =>
    match conn.link, conn.outbound.recv with
    -- the next select reads again
    | .selecting _, some (_, outbound) => some { conn with outbound, link := .selecting false }
    | _, _ => none
  | .writeFails =>
    match conn.link, conn.outbound.recv with
    -- the message was taken to be written, here it stays in a channel that nobody reads any more
    | .selecting _, some _ => some { conn with link := .ended }
    | _, _ => none
  | .hangUp =>
    if conn.link = .selecting true ∧ conn.outbound.msgs = [] ∧ conn.handler.IsGone
      ∧ p.peerToTx.lookup conn.peerId ≠ some c then
      some { conn with link := .ended }
    else
      none

def runConnectionAt (p : TorrentProcessor σ) (c : Nat) (event : LinkEvent)
    : Option (List Signal × TorrentProcessor σ) :=
  match p.connections[c]? with
  | none => none
  | some conn =>
    match runConnection p c conn event with
    | some conn => some ([], p.update c fun _ => conn)
    | none => none

end link

section mainLoop

def withLock (p : TorrentProcessor σ)
    (body : TorrentProcessor σ → Option (List Signal × TorrentProcessor σ))
    : Option (List Signal × TorrentProcessor σ) :=
  match p.lock.lock .mainLoop with
  | (true, lock) => body { p with lock }
  | (false, lock) => some ([], { p with lock })

/--
Send to the peer through the table of senders. A peer that is not there is like one that is gone.
-/
def tell (p : TorrentProcessor σ) (peerId : PeerId) (msg : Messages)
    : Delivery × List Signal × TorrentProcessor σ :=
  match p.peerToTx.lookup peerId with
  | none => (.closed, [], p)
  | some c =>
    match p.deliver .mainLoop c msg with
    | (.delivered, p) => (.delivered, [.sent c msg], p)
    | (.pending, p) => (.pending, [], p)
    | (.closed, p) => (.closed, [], p)

/--
A send whose failure is only logged.
-/
def tellThen (p : TorrentProcessor σ) (peerId : PeerId) (msg : Messages) (arm : Arm)
    : List Signal × TorrentProcessor σ :=
  match p.tell peerId msg with
  | (.pending, signals, p) => (signals, p)
  | (_, signals, p) => (signals, p.setArm arm)

def accept (p : TorrentProcessor σ) (c : Nat) : Option (List Signal × TorrentProcessor σ) :=
  match p.connections[c]? with
  | none => none
  | some conn =>
    if conn.handler = .queued then
      some ([], (p.setHandler c .accepted).setArm (.initConnection c))
    else
      none

def initialMessages (torrent : V1Torrent) (p : TorrentProcessor σ) : List Messages :=
  let bitfield :=
    BitFieldWriter.new.putBitSet p.tracker.piecesCompleted torrent.info.pieces.length
  [.bitField bitfield.bytes, .flag .choke, .flag .notInterested]

def greet (p : TorrentProcessor σ) (c : Nat)
    : List Messages → Option (List Signal × TorrentProcessor σ)
  | [] =>
    match p.connections[c]? with
    | none => none
    | some conn =>
      let p := { p with peerToTx := p.peerToTx.insert conn.peerId c }
      some ([], (p.unlock.setHandler c .receiving).setArm .select)
  | msg :: msgs =>
    match p.deliver .mainLoop c msg with
    | (.delivered, p) => some ([.sent c msg], p.setArm (.greeting c msgs))
    | (.pending, p) => some ([], p)
    | (.closed, p) => some ([], (p.unlock.setHandler c .closed).setArm .select)

def close (p : TorrentProcessor σ) (c : Nat) : Option (List Signal × TorrentProcessor σ) :=
  match p.connections[c]? with
  | none => none
  | some conn =>
    let p := { p with
      peerToTx := p.peerToTx.erase conn.peerId
      torrentState := p.torrentState.removePeer conn.peerId }
    some ([], (p.unlock.setHandler c .closed).setArm .select)

def pruneClosedTx (p : TorrentProcessor σ) : TorrentProcessor σ :=
  { p with
    peerToTx := p.peerToTx.retain fun _ c =>
      match p.connections[c]? with
      | some conn => conn.link ≠ .ended
      | none => false }

def recvWakeUp (p : TorrentProcessor σ) (peerIds : List PeerId)
    : Option (List Signal × TorrentProcessor σ) :=
  match p.wakeUp.recv with
  | none => none
  | some (msg, wakeUp) =>
    let p := { p with wakeUp }.pruneClosedTx
    match msg with
    | .wakeup => some ([.took msg], p.setArm .computing)
    | .pieceComplete pieceId =>
      -- the order in which the map is iterated is part of the event
      if peerIds.Nodup ∧ peerIds.toFinset = p.peerToTx.keys then
        some ([.took msg], p.setArm (.announcing pieceId peerIds))
      else
        none
    | .peerRequestedPiece req => some ([.took msg], p.setArm (.queueing req))

def queueRequests (p : TorrentProcessor σ) (req : PeerRequestedPiece) : TorrentProcessor σ :=
  if (p.torrentState.getInternalPeerState req.peerId).isSome then
    { p with outstandingPeerRequests := p.outstandingPeerRequests ++ [req] }
  else
    p

def dispatch (p : TorrentProcessor σ) (req : PeerRequestedPiece)
    (requests : List PeerRequestedPiece) : List Signal × TorrentProcessor σ :=
  match p.tell req.peerId (.request req.index req.begin req.length) with
  | (.delivered, signals, p) => (signals, p.setArm (.dispatching requests))
  | (.pending, signals, p) => (signals, p)
  | (.closed, signals, p) =>
    (signals, (p.setTracker (p.tracker.removeRequest req).2).setArm (.dispatching requests))

def dequeueRequests (p : TorrentProcessor σ) : TorrentProcessor σ :=
  let toDeq := 4
  -- the one after the last is taken from the queue as well
  { p with outstandingPeerRequests := p.outstandingPeerRequests.drop (toDeq + 1) }.setArm
    (.answering (p.outstandingPeerRequests.take toDeq))

def answer (torrentIo : TorrentIo σ) (p : TorrentProcessor σ) (req : PeerRequestedPiece)
    (dequed : List PeerRequestedPiece) : TorrentProcessor σ :=
  match p.peerToTx.lookup req.peerId with
  | none => p.setArm (.answering dequed)
  | some _ =>
    match torrentIo.readPiece p.io req.index req.begin req.length with
    | (.ok block, io) =>
      { p with io }.setArm (.sending req.peerId (.piece req.index req.begin block) dequed)
    -- the requests that are left are dropped
    | (.error _, io) => { p with io }.setArm .select

def compute (build : Build) (torrent : V1Torrent) (p : TorrentProcessor σ)
    (availiablePieceToPeers : List (UInt32 × List PeerId)) (now : UInt32 → Nat)
    : Option (List Signal × TorrentProcessor σ) :=
  if TorrentState.Iterates p.torrentState.pieceIdToPeers availiablePieceToPeers then
    match (p.tracker.generateAssignments build torrent now availiablePieceToPeers
      : Outcome AnyError _) with
    | .ok (requests, tracker) => some ([], (p.setTracker tracker).setArm (.dispatching requests))
    | .error _ => none
  else
    none

def computeUnchoke (p : TorrentProcessor σ) (newPotentialPeers peersThatLeft : List PeerId)
    : Option (List Signal × TorrentProcessor σ) :=
  let interestedPeers := p.torrentState.peersThatAreInterested true
  if newPotentialPeers.Nodup ∧ peersThatLeft.Nodup
    ∧ newPotentialPeers.toFinset = interestedPeers \ p.torrentState.stationaryPeerSet
    ∧ peersThatLeft.toFinset
      = p.torrentState.unchokedPeers \ p.torrentState.stationaryPeerSet then
    some ([], p.setArm (.choking (p.torrentState.combinedPeers newPotentialPeers peersThatLeft)))
  else
    none

def chokePeer (p : TorrentProcessor σ) (peerId : PeerId) (choked : Bool)
    (combinedPeers : List (PeerId × Bool)) : List Signal × TorrentProcessor σ :=
  -- nothing else reads the flag before the message is in the channel
  let p := { p with torrentState := p.torrentState.setChoked peerId choked }
  p.tellThen peerId (.flag (if choked then .choke else .unchoke)) (.choking combinedPeers)

def removeExpired (p : TorrentProcessor σ) (now : Nat) : List Signal × TorrentProcessor σ :=
  let (expired, tracker) := p.tracker.removeExpired now
  let p := (p.setTracker tracker).unlock
  match expired with
  | [] => ([], p.setArm .select)
  | _ :: _ => ([.expired expired], p.setArm .wakingUp)

def sendWakeUp (p : TorrentProcessor σ) : List Signal × TorrentProcessor σ :=
  let signals :=
    if .mainLoop ∈ p.wakeUp.senders then [] else [.woke .mainLoop .wakeup]
  match p.wakeUp.send .mainLoop .wakeup with
  | (true, wakeUp) => (signals, { p with wakeUp }.setArm .select)
  | (false, wakeUp) => (signals, { p with wakeUp })

def advance (torrentIo : TorrentIo σ) (torrent : V1Torrent) (p : TorrentProcessor σ)
    : Option (List Signal × TorrentProcessor σ) :=
  match p.arm with
  | .initConnection c =>
    p.withLock fun p => some ([], p.setArm (.greeting c (p.initialMessages torrent)))
  | .greeting c msgs => p.greet c msgs
  | .closing c => p.withLock fun p => p.close c
  | .announcing pieceId (peerId :: peerIds) =>
    some (p.tellThen peerId (.have pieceId) (.announcing pieceId peerIds))
  | .announcing _ [] => some ([], p.setArm .computing)
  | .queueing req => p.withLock fun p => some ([], (p.queueRequests req).unlock.setArm .computing)
  | .dispatching (req :: requests) => some (p.dispatch req requests)
  | .dispatching [] => some ([], p.unlock.setArm .dequeueing)
  | .dequeueing => p.withLock fun p => some ([], p.dequeueRequests.unlock)
  | .answering (req :: dequed) => some ([], p.answer torrentIo req dequed)
  | .answering [] => some ([], p.setArm .select)
  | .sending peerId msg dequed => some (p.tellThen peerId msg (.answering dequed))
  | .choking ((peerId, choked) :: combinedPeers) => some (p.chokePeer peerId choked combinedPeers)
  | .choking [] => some ([], p.unlock.setArm .expiring)
  | .wakingUp => some p.sendWakeUp
  | .select | .computing | .unchoking | .expiring => none

end mainLoop

end TorrentProcessor

def startTask (build : Build) (torrentIo : TorrentIo σ) (config : Config) (torrent : V1Torrent)
    : Machine (TorrentProcessor σ) StartEvent (List Signal) where
  step p event :=
    match event with
    | .connect peerId =>
      match p.connect config peerId with
      | some p => some ([], p)
      | none => none
    | .link c event => p.runConnectionAt c event
    | .io c => p.write torrentIo c
    -- the loop looks at its handlers and channels in the select only
    | .poll c => if p.arm = .select then p.poll c else none
    | .accept c => if p.arm = .select then p.accept c else none
    | .recvWakeUp peerIds => if p.arm = .select then p.recvWakeUp peerIds else none
    | .tick => if p.arm = .select then some ([], p.setArm .unchoking) else none
    | .advance => p.advance torrentIo torrent
    | .compute availiablePieceToPeers now =>
      if p.arm = .computing then
        p.withLock fun p => p.compute build torrent availiablePieceToPeers now
      else
        none
    | .unchoke newPotentialPeers peersThatLeft =>
      if p.arm = .unchoking then
        p.withLock fun p => p.computeUnchoke newPotentialPeers peersThatLeft
      else
        none
    | .expire now =>
      if p.arm = .expiring then p.withLock fun p => some (p.removeExpired now) else none

def onePieceTask (config : Config)
    : Machine (TorrentProcessor MemoryTorrentIo) StartEvent (List Signal) :=
  startTask ⟨true⟩ (MemoryTorrentIo.torrentIo ⟨true⟩) config (torrentFixture 2 2 [[1, 2]])

def onePieceStart (config : Config) : TorrentProcessor MemoryTorrentIo :=
  .new config (torrentFixture 2 2 [[1, 2]]) { memory := [⟨[0, 0], .new 2⟩] }

def greetingEvents (c : Nat) (peerId : PeerId) : List StartEvent :=
  [.connect peerId, .accept c, .advance, .advance, .advance, .advance, .advance]

def handlingEvents (c : Nat) (msg : Messages) : List StartEvent :=
  [.link c (.read msg), .poll c, .poll c]

/--
The peer `[5]` has the piece and is asked for it.
-/
def requestingEvents : List StartEvent :=
  greetingEvents 0 [5] ++ handlingEvents 0 (.flag .unchoke) ++ handlingEvents 0 (.have 0)
    ++ [.recvWakeUp [], .compute [(0, [[5]])] (fun _ => 0), .advance, .advance, .advance, .advance]

def expiringEvents : List StartEvent :=
  [.tick, .unchoke [] [], .advance, .expire (10 * 10 ^ 9)]
