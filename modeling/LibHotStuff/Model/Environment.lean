import LibHotStuff.Model.Network

namespace LibHotStuff.Replica

variable {H Sig : Type} [DecidableEq H]

/-- What one event does to a replica whose peers may send anything: the checks are those that the
replica makes itself. -/
def handle (P : Primitives H Sig) (nd : Replica H Sig) : Event H Sig → Option (Replica H Sig)
  | .fetch _ _ data =>
    if nd.idle then some { nd with core := nd.core.addBlk P data.fetched } else none
  | .deliver _ blk =>
    if nd.idle && deliverable P nd.core blk then
      some (nd.absorb [] [] (nd.core.onDeliverBlk blk))
    else none
  | .receiveProposal _ src ord prop =>
    if nd.idle && decide (prop.proposer = src) && decide (src ≠ nd.core.id) &&
        decide (src < nd.core.config.nreplicas) && prop.slice.decodable &&
        nd.core.delivered prop.blk then
      some (nd.absorb ord [] (nd.core.onReceiveProposal P prop))
    else none
  | .receiveVote _ ord vote =>
    if nd.idle && decide (vote.voter < nd.core.config.nreplicas) &&
        P.verifySig vote.voter vote.cert.objHash vote.cert.sig &&
        decide (vote.cert.objHash = vote.blkHash) && nd.core.delivered vote.blkHash then
      some (nd.absorb ord [] (nd.core.onReceiveVote vote))
    else none
  | .receiveSlice _ _ hash slice =>
    if nd.idle && slice.decodable then
      if hash = P.hashSlice slice then some (nd.absorb [] [] (nd.core.onReceiveSlice P slice))
      else some nd
    else none
  | .propose _ ord cmds parents extra =>
    if nd.atPacemaker && parents.all nd.core.delivered then
      some (nd.absorb ord nd.tasks (nd.core.onPropose P cmds parents extra))
    else none
  | .asyncQcFinish _ blk =>
    if nd.atPacemaker && (decide (blk = nd.core.b0) || decide (blk ∈ nd.lastProposed)) then
      some { nd with qcWaiting := blk :: nd.qcWaiting }
    else none
  | .runTask _ ord toSelf => if nd.halted then none else nd.runTask ord toSelf

/-- A pacemaker that derives from `PMHighTail` proposes on `get_parents`. -/
def highTailed (nd : Replica H Sig) : Event H Sig → Bool
  | .propose _ _ _ parents _ => decide (parents = nd.getParents)
  | _ => true

/-- The states that a replica reaches whatever its peers send, when each event meets `cond`. -/
def Runs (P : Primitives H Sig) (dummy : QuorumCert H Sig) (replicas : List NetAddr)
    (listenAddr : NetAddr) (id : ReplicaID) (cond : Replica H Sig → Event H Sig → Prop)
    (nd : Replica H Sig) : Prop :=
  Transition.Reaches (handle P) cond (init P dummy replicas listenAddr id) nd

end LibHotStuff.Replica
