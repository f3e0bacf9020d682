import LibHotStuff.Library.Transition
import LibHotStuff.Model.Replica
import Mathlib

namespace LibHotStuff

/-- A deployment: the replicas given to `start`, each listening on exactly one of the listed
addresses, and the ones that do not follow the code. Ids are 16 bits wide. -/
structure Deployment where
  replicas : List NetAddr
  listenAddr : ReplicaID → NetAddr
  byzantine : Finset ReplicaID
  nonempty : 0 < replicas.length
  idWidth : replicas.length ≤ 2 ^ 16
  listensOnce : ∀ i < replicas.length, replicas.count (listenAddr i) = 1
  byzantineLt : ∀ i ∈ byzantine, i < replicas.length
  byzantineCard : byzantine.card ≤ (replicas.length - 1) / 3

def Deployment.n (D : Deployment) : Nat := D.replicas.length

/-- A replica that runs the code. -/
def Deployment.Correct (D : Deployment) (r : ReplicaID) : Prop := r < D.n ∧ r ∉ D.byzantine

instance (D : Deployment) (r : ReplicaID) : Decidable (D.Correct r) :=
  inferInstanceAs (Decidable (_ ∧ _))

/-- The state of the system: the replicas. Messages are never taken off the network, so what
is in flight is read off the logs of the senders. -/
@[ext]
structure Sys (H Sig : Type) where
  node : ReplicaID → Replica H Sig

/-- An event at replica `r`; `src` is the replica a message came from. -/
inductive Event (H Sig : Type)
  /-- a block parsed from a proposal or a response enters the storage -/
  | fetch (r src : ReplicaID) (data : BlockData H Sig)
  /-- all that `async_deliver_blk` waits for has arrived -/
  | deliver (r : ReplicaID) (blk : H)
  | receiveProposal (r src : ReplicaID) (ord : List H) (prop : Proposal H)
  | receiveVote (r : ReplicaID) (ord : List H) (vote : Vote H Sig)
  | receiveSlice (r src : ReplicaID) (hash : H) (slice : Slice H)
  /-- the application or the pacemaker proposes -/
  | propose (r : ReplicaID) (ord : List H) (cmds : List UInt256) (parents : List H) (extra : Bytes)
  /-- the pacemaker waits for the certificate of a block with `async_qc_finish` -/
  | asyncQcFinish (r : ReplicaID) (blk : H)
  /-- the handler that runs makes its next call -/
  | runTask (r : ReplicaID) (ord : List H) (toSelf : Bool)

namespace Event

variable {H Sig : Type}

/-- The replica at which the event happens. -/
def at_ : Event H Sig → ReplicaID
  | fetch r _ _ => r
  | deliver r _ => r
  | receiveProposal r _ _ _ => r
  | receiveVote r _ _ => r
  | receiveSlice r _ _ _ => r
  | propose r _ _ _ _ => r
  | asyncQcFinish r _ => r
  | runTask r _ _ => r

/-- The call of the core that the event makes, but for a vote handed to itself. -/
def call? : Event H Sig → Option (Call H Sig)
  | fetch _ _ data => some (.addBlk data)
  | deliver _ blk => some (.onDeliverBlk blk)
  | receiveProposal _ _ _ prop => some (.onReceiveProposal prop)
  | receiveVote _ _ vote => some (.onReceiveVote vote)
  | receiveSlice _ _ _ slice => some (.onReceiveSlice slice)
  | propose _ _ cmds parents extra => some (.onPropose cmds parents extra)
  | asyncQcFinish _ _ => none
  | runTask _ _ _ => none

end Event

namespace Sys

variable {H Sig : Type} [DecidableEq H] [DecidableEq Sig]

/-- Replica `r` has signed block `h` and handed the vote to `do_vote`. -/
def signed (s : Sys H Sig) (r : ReplicaID) (h : H) : Bool :=
  (s.node r).log.any fun
    | .doVote _ v => decide (v.blkHash = h)
    | _ => false

/-- Nobody can make a signature that verifies for a correct replica but that replica. -/
def unforged (P : Primitives H Sig) (D : Deployment) (s : Sys H Sig) (rid : ReplicaID) (h : H)
    (sig : Sig) : Bool :=
  !P.verifySig rid h sig || !decide (D.Correct rid) || s.signed rid h

def qcUnforged (P : Primitives H Sig) (D : Deployment) (s : Sys H Sig) (qc : QuorumCert H Sig) :
    Bool :=
  qc.signers.all fun (rid, sig) => s.unforged P D rid qc.objHash sig

/-- A proposal that `src` may have sent to `r`: a correct peer sends what it has broadcast. -/
def proposalSent (D : Deployment) (s : Sys H Sig) (src r : ReplicaID) (prop : Proposal H) : Bool :=
  !decide (D.Correct src) || (s.node src).log.any fun
    | .doBroadcastProposalWithSlice props => decide (props[r]? = some prop)
    | _ => false

def sliceSent (D : Deployment) (s : Sys H Sig) (src : ReplicaID) (slice : Slice H) : Bool :=
  !decide (D.Correct src) || (s.node src).log.any fun
    | .doBroadcastSlice sl => decide (sl = slice)
    | _ => false

/-- A block that `src` may have sent: a correct peer sends blocks from its storage. -/
def blockSent (P : Primitives H Sig) (D : Deployment) (s : Sys H Sig) (src : ReplicaID)
    (data : BlockData H Sig) : Bool :=
  !decide (D.Correct src) ||
    ((s.node src).core.storage (P.hashBlock data)).any fun b => decide (b.toBlockData = data)

def init (P : Primitives H Sig) (D : Deployment) (dummy : QuorumCert H Sig) : Sys H Sig :=
  { node := fun r => .init P dummy D.replicas (D.listenAddr r) r }

def set (s : Sys H Sig) (r : ReplicaID) (nd : Replica H Sig) : Sys H Sig :=
  { node := Function.update s.node r nd }

/-- What one event does to the replica it happens at, when it is enabled there. -/
def handle (P : Primitives H Sig) (D : Deployment) (s : Sys H Sig) :
    Event H Sig → Option (Replica H Sig)
  | .fetch r src data =>
    let nd := s.node r
    if nd.idle && decide (src < D.n) && s.blockSent P D src data && s.qcUnforged P D data.qc then
      some { nd with core := nd.core.addBlk P data.fetched }
    else none
  | .deliver r blk =>
    let nd := s.node r
    if nd.idle && Replica.deliverable P nd.core blk then
      some (nd.absorb [] [] (nd.core.onDeliverBlk blk))
    else none
  | .receiveProposal r src ord prop =>
    let nd := s.node r
    if nd.idle && decide (prop.proposer = src) && decide (src ≠ r) && decide (src < D.n) &&
        prop.slice.decodable && s.proposalSent D src r prop && nd.core.delivered prop.blk then
      some (nd.absorb ord [] (nd.core.onReceiveProposal P prop))
    else none
  | .receiveVote r ord vote =>
    let nd := s.node r
    if nd.idle && decide (vote.voter < D.n) &&
        P.verifySig vote.voter vote.cert.objHash vote.cert.sig &&
        decide (vote.cert.objHash = vote.blkHash) &&
        s.unforged P D vote.voter vote.cert.objHash vote.cert.sig &&
        nd.core.delivered vote.blkHash then
      some (nd.absorb ord [] (nd.core.onReceiveVote vote))
    else none
  | .receiveSlice r src hash slice =>
    let nd := s.node r
    if nd.idle && decide (src < D.n) && slice.decodable && s.sliceSent D src slice then
      -- slice_handler drops a slice that does not match its own hash
      if hash = P.hashSlice slice then some (nd.absorb [] [] (nd.core.onReceiveSlice P slice))
      else some nd
    else none
  | .propose r ord cmds parents extra =>
    let nd := s.node r
    if nd.atPacemaker && parents.all nd.core.delivered then
      some (nd.absorb ord nd.tasks (nd.core.onPropose P cmds parents extra))
    else none
  | .asyncQcFinish r blk =>
    let nd := s.node r
    if nd.atPacemaker && (decide (blk = nd.core.b0) || decide (blk ∈ nd.lastProposed)) then
      some { nd with qcWaiting := blk :: nd.qcWaiting }
    else none
  | .runTask r ord toSelf =>
    let nd := s.node r
    if nd.halted then none else nd.runTask ord toSelf

/-- One step of the system; only correct replicas have a state that matters. -/
def step (P : Primitives H Sig) (D : Deployment) (s : Sys H Sig) (e : Event H Sig) :
    Option (Sys H Sig) :=
  if D.Correct e.at_ then (s.handle P D e).map (s.set e.at_) else none

/-- The states that are reached from the start when each step meets `cond`. -/
def ReachableBy (P : Primitives H Sig) (D : Deployment) (dummy : QuorumCert H Sig)
    (cond : Sys H Sig → Event H Sig → Prop) (s : Sys H Sig) : Prop :=
  Transition.Reaches (step P D) cond (init P D dummy) s

/-- The states that are reached in any run. -/
def Reachable (P : Primitives H Sig) (D : Deployment) (dummy : QuorumCert H Sig)
    (s : Sys H Sig) : Prop :=
  s.ReachableBy P D dummy fun _ _ => True

/-- The block that an event lets `on_propose` build, and its commands. -/
def builds (P : Primitives H Sig) (s : Sys H Sig) : Event H Sig → Option (H × List UInt256)
  | .propose r _ cmds (p :: parents) extra =>
    some (P.hashBlock ((s.node r).core.proposedData P cmds (p :: parents) extra), cmds)
  | _ => none

/-- A step, with what has been built so far. -/
def stepBuilding (P : Primitives H Sig) (D : Deployment) (s : Sys H Sig × List (H × List UInt256))
    (e : Event H Sig) : Option (Sys H Sig × List (H × List UInt256)) :=
  (s.1.step P D e).map fun s' => (s', (s.1.builds P e).toList ++ s.2)

/-- `nmajority` replicas have made valid votes for `h`: the correct ones have signed it. -/
def Certified (D : Deployment) (s : Sys H Sig) (h : H) : Prop :=
  ∃ i, ∃ Q : Finset ReplicaID, D.Correct i ∧ Q ⊆ Finset.range D.n ∧
    (s.node i).core.config.nmajority ≤ Q.card ∧ ∀ r ∈ Q, D.Correct r → s.signed r h = true

end Sys
end LibHotStuff
