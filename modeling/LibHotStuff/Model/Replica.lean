import LibHotStuff.Model.Consensus

namespace LibHotStuff

abbrev NetAddr := Nat

/-- A running `HotStuffBase` with a pacemaker that derives from `PMHighTail`. -/
structure Replica (H Sig : Type) where
  core : Core H Sig
  /-- `PMHighTail::hqc_tail` -/
  hqcTail : H
  /-- blocks whose promise in `qc_waiting` has a callback of the pacemaker -/
  qcWaiting : List H
  /-- blocks that the `async_wait_proposal` callbacks have been given -/
  lastProposed : List H
  /-- what the handler that runs has still to call -/
  tasks : List (Task H Sig)
  /-- the calls made so far -/
  log : List (Output H Sig)
  /-- the exceptions that have left a handler -/
  thrown : List Error
  /-- set when an assertion failed or the behaviour was undefined -/
  halted : Bool

namespace Core

variable {H Sig : Type} [DecidableEq H]

/-- `HotStuffBase::start` up to the pacemaker: `peers` has the other addresses. -/
def start (c : Core H Sig) (replicas : List NetAddr) (listenAddr : NetAddr) : Core H Sig :=
  let c := { c with
    rse := RSE.setParams replicas.length, sc := ShardsContainer.setParams replicas.length }
  let c := (List.range replicas.length).foldl addReplica c
  c.onInit ((replicas.filter (· ≠ listenAddr)).length / 3)

/-- `PMHighTail::check_ancestry`. -/
def checkAncestry (c : Core H Sig) (a b : H) : Bool :=
  match c.walkDown (c.height a) (c.height b + 1) b with
  | .ok (_, e) => decide (e = a)
  | .error _ => false

/-- The callback of `reg_hqc_update`. The set of tails is ordered by addresses, so `ord` says
which tails come first. -/
def highTail (c : Core H Sig) (ord : List H) : H :=
  (ord.filter (· ∈ c.tails) ++ c.tails.filter (· ∉ ord)).foldl
    (fun t tail =>
      if c.checkAncestry c.hqc.1 tail && decide (c.height t < c.height tail) then tail else t)
    c.hqc.1

end Core

namespace Output

variable {H Sig : Type}

def isHqcUpdate : Output H Sig → Bool
  | onHqcUpdate => true
  | _ => false

end Output

namespace Replica

variable {H Sig : Type} [DecidableEq H]

/-- A replica after `start`. -/
def init (P : Primitives H Sig) (dummy : QuorumCert H Sig) (replicas : List NetAddr)
    (listenAddr : NetAddr) (id : ReplicaID) : Replica H Sig :=
  { core := (Core.new P id dummy).start replicas listenAddr, hqcTail := P.genesisHash,
    qcWaiting := [], lastProposed := [], tasks := [], log := [], thrown := [], halted := false }

/-- Takes over what a core function left; `rest` is what the caller had still to do. An
exception unwinds every caller. -/
def absorb (r : Replica H Sig) (ord : List H) (rest : List (Task H Sig)) (res : Res H Sig) :
    Replica H Sig :=
  let r := { r with
    core := res.core
    hqcTail := if res.outs.any Output.isHqcUpdate then res.core.highTail ord else r.hqcTail
    log := r.log ++ res.outs }
  match res.exit with
  | none => { r with tasks := res.tasks ++ rest }
  | some (.throw e) => { r with tasks := [], thrown := e :: r.thrown }
  | some _ => { r with tasks := [], halted := true }

/-- Between two handlers. -/
def idle (r : Replica H Sig) : Bool := !r.halted && r.tasks.isEmpty

/-- Where code of the pacemaker or the application runs. -/
def atPacemaker (r : Replica H Sig) : Bool :=
  !r.halted && match r.tasks with
    | [] => true
    | .pacemaker :: _ => true
    | _ => false

/-- Makes the next call of the handler that runs. -/
def runTask (r : Replica H Sig) (ord : List H) (toSelf : Bool) : Option (Replica H Sig) :=
  match r.tasks with
  | [] => none
  | .onQcFinish blk :: rest =>
    if blk ∈ r.qcWaiting then
      some { r with qcWaiting := r.qcWaiting.filter (· ≠ blk), tasks := .pacemaker :: rest }
    else some { r with tasks := rest }
  | .onReceiveProposal_ prop :: rest =>
    let up := r.core.checkAncestry r.core.hqc.1 prop.blk &&
      decide (r.core.height r.hqcTail < r.core.height prop.blk)
    some { r with hqcTail := if up then prop.blk else r.hqcTail, tasks := rest }
  | .onPropose_ prop :: rest =>
    some { r with
      hqcTail := prop.blk, lastProposed := prop.blk :: r.lastProposed, tasks := .pacemaker :: rest }
  | .doVote last vote :: rest =>
    let r := { r with log := r.log ++ [Output.doVote last vote] }
    if toSelf then some (r.absorb ord rest (r.core.onReceiveVote vote))
    else some { r with tasks := rest }
  | .doBroadcastProposalWithSlice props :: rest =>
    some { r with log := r.log ++ [Output.doBroadcastProposalWithSlice props], tasks := rest }
  | .pacemaker :: rest => some { r with tasks := rest }

/-- `get_parents`. -/
def getParents (r : Replica H Sig) : List H := [r.hqcTail]

/-- What `async_deliver_blk` waits for before it delivers a block. -/
def deliverable (P : Primitives H Sig) (c : Core H Sig) (blk : H) : Bool :=
  match c.storage blk with
  | none => false
  | some b =>
    (decide (b.qc.objHash = c.b0) || b.qc.verify P c.config == some true) &&
      (c.storage b.qc.objHash).isSome && b.parentHashes.all c.delivered

end Replica
end LibHotStuff
