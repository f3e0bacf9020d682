import LibHotStuff.Model.Messages

/-! The replicas as they run: they send each other bytes, fetch the blocks that they miss, and handle
a message when the block that it is about has been delivered. -/

namespace LibHotStuff

variable {PubKey H Sig : Type} [DecidableEq H] [DecidableEq Sig]

/-- A message that `r` may get: a correct peer sends what it has broadcast and blocks of its storage,
and nobody makes a signature of a correct replica. -/
def Sys.maySend (P : Primitives H Sig) (D : Deployment) (s : Sys H Sig) (r : ReplicaID) :
    Input H Sig → Bool
  | .propose src proposer sHash slice data =>
    s.proposalSent D src r
      { proposer := proposer, sHash := sHash, slice := slice, blk := P.hashBlock data } &&
      s.blockSent P D src data && s.qcUnforged P D data.qc
  | .vote _ vote => s.unforged P D vote.voter vote.cert.objHash vote.cert.sig
  | .respBlock src blks _ => blks.all fun data => s.blockSent P D src data && s.qcUnforged P D data.qc
  | .slice src _ slice => s.sliceSent D src slice
  | _ => true

/-- The replicas that a `PeerNetwork` connects. -/
structure PeerNetwork (H Sig : Type) where
  node : ReplicaID → HotStuffBase H Sig

namespace PeerNetwork

/-- The replicas below the handlers. -/
def sys (s : PeerNetwork H Sig) : Sys H Sig := { node := fun r => (s.node r).replica }

/-- Bytes that may arrive at `r`. -/
def mayArrive (P : Primitives H Sig) (F : Formats PubKey Sig) (name : UInt256 → H) (D : Deployment)
    (s : PeerNetwork H Sig) (r : ReplicaID) : Arrival H Sig → Bool
  | .message src op bytes =>
    match op.parse F name src bytes with
    | .ok (e, _) => s.sys.maySend P D r e
    | .error _ => true
  | .turn _ => true

def init (P : Primitives H Sig) (D : Deployment) (dummy : QuorumCert H Sig) : PeerNetwork H Sig :=
  { node := fun r => .init P dummy D.replicas (D.listenAddr r) r }

def set (s : PeerNetwork H Sig) (r : ReplicaID) (b : HotStuffBase H Sig) : PeerNetwork H Sig :=
  { node := Function.update s.node r b }

/-- A replica takes in bytes or goes on. -/
def step (P : Primitives H Sig) (F : Formats PubKey Sig) (name : UInt256 → H) (D : Deployment)
    (s : PeerNetwork H Sig) (e : ReplicaID × Arrival H Sig) : Option (PeerNetwork H Sig) :=
  if D.Correct e.1 ∧ s.mayArrive P F name D e.1 e.2 = true then
    ((s.node e.1).arrive P F name e.2).map (s.set e.1)
  else none

/-- The block that `on_propose` builds, and its commands. -/
def builds (P : Primitives H Sig) (s : PeerNetwork H Sig) :
    ReplicaID × Arrival H Sig → Option (H × List UInt256)
  | (r, .turn (.onPropose ord cmds parents extra)) =>
    s.sys.builds P (.propose r ord cmds parents extra)
  | _ => none

/-- A step, with what has been built so far. -/
def stepBuilding (P : Primitives H Sig) (F : Formats PubKey Sig) (name : UInt256 → H) (D : Deployment)
    (x : PeerNetwork H Sig × List (H × List UInt256)) (e : ReplicaID × Arrival H Sig) :
    Option (PeerNetwork H Sig × List (H × List UInt256)) :=
  (x.1.step P F name D e).map fun s => (s, (x.1.builds P e).toList ++ x.2)

end PeerNetwork
end LibHotStuff
