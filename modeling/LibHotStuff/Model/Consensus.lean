import LibHotStuff.Model.Entity
import LibHotStuff.Model.ShardsContainer

namespace LibHotStuff

/-- `Proposal`; `blk` is the stored block that `unserialize` returns. -/
structure Proposal (H : Type) where
  proposer : ReplicaID
  sHash : H
  slice : Slice H
  blk : H
  deriving DecidableEq

structure Vote (H Sig : Type) where
  voter : ReplicaID
  blkHash : H
  cert : PartCert H Sig
  deriving DecidableEq

structure Finality (H : Type) where
  rid : ReplicaID
  decision : Nat
  cmdIdx : Nat
  cmdHeight : Nat
  cmdHash : UInt256
  blkHash : H
  deriving DecidableEq

/-- The calls that the core makes while it runs. -/
inductive Output (H Sig : Type)
  | doBroadcastSlice (slice : Slice H)
  | onHqcUpdate
  | doConsensus (blk : H)
  | doDecide (fin : Finality H)
  | doVote (lastProposer : ReplicaID) (vote : Vote H Sig)
  | doBroadcastProposalWithSlice (props : List (Proposal H))
  deriving DecidableEq

/-- The calls at the end of a core function, after its last write to the core state. The
first three settle promises, so callbacks of the pacemaker run there, and `doVote` may hand
the vote back to the replica itself. -/
inductive Task (H Sig : Type)
  | onQcFinish (blk : H)
  | onReceiveProposal_ (prop : Proposal H)
  | onPropose_ (prop : Proposal H)
  | doVote (lastProposer : ReplicaID) (vote : Vote H Sig)
  | doBroadcastProposalWithSlice (props : List (Proposal H))
  /-- a promise has been settled or a proposal returned: the pacemaker may act -/
  | pacemaker
  deriving DecidableEq

/-- `HotStuffCore`. -/
structure Core (H Sig : Type) where
  id : ReplicaID
  b0 : H
  hqc : H × QuorumCert H Sig
  bLock : H
  bExec : H
  vheight : Nat
  tails : List H
  config : ReplicaConfig
  voteDisabled : Bool
  storage : H → Option (Block H Sig)
  rse : RSE
  sc : ShardsContainer H
  /-- the result that each `shared_future` holds -/
  futures : H → Option (Except Fault (List UInt256))

/-- What a core function leaves: the state, the calls it made, the calls it ends with, and
how it ended when it did not return. -/
structure Res (H Sig : Type) where
  core : Core H Sig
  outs : List (Output H Sig)
  tasks : List (Task H Sig)
  exit : Option Fault

namespace Res

variable {H Sig : Type}

def ok (c : Core H Sig) : Res H Sig := ⟨c, [], [], none⟩

def fail (c : Core H Sig) (f : Fault) : Res H Sig := ⟨c, [], [], some f⟩

def emit (c : Core H Sig) (outs : List (Output H Sig)) : Res H Sig := ⟨c, outs, [], none⟩

/-- Continues with `f` unless the first part did not return. -/
def bind (r : Res H Sig) (f : Core H Sig → Res H Sig) : Res H Sig :=
  match r.exit with
  | some _ => r
  | none =>
    let r' := f r.core
    ⟨r'.core, r.outs ++ r'.outs, r.tasks ++ r'.tasks, r'.exit⟩

end Res

/-- `async_decode`: the commands, in chunks of 32 bytes, or none when `decode` fails. -/
def asyncDecode (leo : Leopard) (rse : RSE) (input : List Bytes) : Except Fault (List UInt256) :=
  match rse.decode leo input with
  | .error f => .error f
  | .ok (rst, out) =>
    if rst ≠ 0 then .ok []
    else if out.length % 32 ≠ 0 then .error .assertion
    else .ok ((List.range (out.length / 32)).map fun i =>
      UInt256.ofBytes ((out.drop (i * 32)).take 32))

namespace Core

variable {H Sig : Type} [DecidableEq H]

def height (c : Core H Sig) (h : H) : Nat := ((c.storage h).map (·.height)).getD 0

def delivered (c : Core H Sig) (h : H) : Bool := ((c.storage h).map (·.delivered)).getD false

def decided (c : Core H Sig) (h : H) : Bool := ((c.storage h).map (·.decision)).getD false

/-- The voters of a block that have been counted. -/
def voters (c : Core H Sig) (h : H) : List ReplicaID := ((c.storage h).map (·.voted)).getD []

def qcRef (c : Core H Sig) (h : H) : Option H := (c.storage h).bind (·.qcRef)

/-- `parents[0]`. -/
def parent0 (c : Core H Sig) (h : H) : Option H := (c.storage h).bind (·.parents.head?)

/-- Writes one stored block. -/
def modify (c : Core H Sig) (h : H) (f : Block H Sig → Block H Sig) : Core H Sig :=
  { c with storage := Function.update c.storage h ((c.storage h).map f) }

/-- `EntityStorage::add_blk`: a stored block is kept. -/
def addBlk (P : Primitives H Sig) (c : Core H Sig) (b : Block H Sig) : Core H Sig :=
  match c.storage (P.hashBlock b.toBlockData) with
  | some _ => c
  | none =>
    { c with storage := Function.update c.storage (P.hashBlock b.toBlockData) (some b) }

/-- The walk `for (b = from; b->height > height; b = b->parents[0])`: the blocks it leaves
behind, and the one it stops at. -/
def walkDown (c : Core H Sig) (height : Nat) : Nat → H → Except Fault (List H × H)
  | 0, _ => .error .diverges
  | fuel + 1, b =>
    if height < c.height b then
      match c.parent0 b with
      | none => .error .undefined
      | some p => (walkDown c height fuel p).map fun (q, e) => (b :: q, e)
    else .ok ([], b)

/-- `on_deliver_blk`: what it leaves when every check passes. -/
def deliverBlk (c : Core H Sig) (blk : H) (b : Block H Sig) (p0 : H) : Core H Sig :=
  let c' := c.modify blk fun b => { b with
    parents := b.parentHashes, height := c.height p0 + 1, qcRef := some b.qc.objHash,
    delivered := true }
  { c' with tails := (c.tails.filter (· ∉ b.parentHashes)).insert blk }

/-- `HotStuffCore::on_deliver_blk`. A throw leaves the block undelivered. -/
def onDeliverBlk (c : Core H Sig) (blk : H) : Res H Sig :=
  match c.storage blk with
  | none => .fail c .undefined
  | some b =>
    if b.delivered then .ok c
    else if b.parentHashes.all c.delivered then
      match b.parentHashes.head? with
      | none => .fail (c.modify blk fun b => { b with parents := [] }) .undefined
      | some p0 =>
        if (c.storage b.qc.objHash).isSome then .ok (c.deliverBlk blk b p0)
        else .fail (c.modify blk fun b => { b with
          parents := b.parentHashes, height := c.height p0 + 1 }) (.throw .qcBlockNotFetched)
    else .fail (c.modify blk fun b => { b with
      parents := b.parentHashes.takeWhile c.delivered }) (.throw .blockNotDelivered)

/-- `update_hqc`. -/
def updateHqc (c : Core H Sig) (hqc : H) (qc : QuorumCert H Sig) : Res H Sig :=
  if c.height c.hqc.1 < c.height hqc then .emit { c with hqc := (hqc, qc) } [.onHqcUpdate]
  else .ok c

/-- The part of `update` that starts decoding. `futures.insert` keeps an entry; the future that it
does not take is destroyed, which waits for its `async_decode` and drops only an exception. -/
def startDecode (P : Primitives H Sig) (c : Core H Sig) (blk1 : H) : Res H Sig :=
  match c.sc.getBlock blk1 with
  | (0, input) =>
    match c.futures blk1, asyncDecode P.leopard c.rse input with
    | none, fu => .ok { c with futures := Function.update c.futures blk1 (some fu) }
    | some _, .ok _ => .ok c
    | some _, .error (.throw _) => .ok c
    | some _, .error f => .fail c f
  | _ => .ok c

def lock (c : Core H Sig) (blk1 : H) : Core H Sig :=
  if c.height c.bLock < c.height blk1 then { c with bLock := blk1 } else c

/-- The `do_decide` calls for one block. -/
def decisions (c : Core H Sig) (blk : H) (cmds : List UInt256) : List (Output H Sig) :=
  cmds.mapIdx fun i cmd => .doDecide
    { rid := c.id, decision := 1, cmdIdx := i, cmdHeight := c.height blk, cmdHash := cmd,
      blkHash := blk }

/-- One turn of the commit loop. -/
def commitBlk (c : Core H Sig) (blk : H) : Res H Sig :=
  let c := c.modify blk fun b => { b with decision := true }
  match c.futures blk with
  | none => .emit c [.doConsensus blk]
  | some (.error f) => ⟨c, [.doConsensus blk], [], some f⟩
  | some (.ok cmds) =>
    .emit { c with futures := Function.update c.futures blk none, sc := c.sc.remove blk }
      (.doConsensus blk :: c.decisions blk cmds)

def commitAll (c : Core H Sig) : List H → Res H Sig
  | [] => .ok c
  | b :: bs => (c.commitBlk b).bind fun c => c.commitAll bs

/-- The end of `update`: the walk to `b_exec`, the check and the commit loop. -/
def commit (c : Core H Sig) (blk : H) : Res H Sig :=
  match c.walkDown (c.height c.bExec) (c.height blk + 1) blk with
  | .error f => .fail c f
  | .ok (queue, b) =>
    if b ≠ c.bExec then .fail c (.throw .safetyBreached)
    else (c.commitAll queue.reverse).bind fun c => .ok { c with bExec := blk }

/-- The part of `update` after `update_hqc`. -/
def updateLock (P : Primitives H Sig) (c : Core H Sig) (blk2 : H) : Res H Sig :=
  match c.qcRef blk2 with
  | none => .ok c
  | some blk1 =>
    if c.decided blk1 then .ok c
    else
      (c.startDecode P blk1).bind fun c =>
        let c := c.lock blk1
        match c.qcRef blk1 with
        | none => .ok c
        | some blk =>
          if c.decided blk then .ok c
          else
            match c.parent0 blk2 with
            | none => .fail c .undefined
            | some p2 =>
              if p2 ≠ blk1 then .ok c
              else
                match c.parent0 blk1 with
                | none => .fail c .undefined
                | some p1 => if p1 ≠ blk then .ok c else c.commit blk

/-- `HotStuffCore::update`, three-step. -/
def update (P : Primitives H Sig) (c : Core H Sig) (nblk : H) : Res H Sig :=
  match c.storage nblk with
  | none => .fail c .undefined
  | some n =>
    match n.qcRef with
    | none => .ok c
    | some blk2 =>
      if c.decided blk2 then .ok c
      else (c.updateHqc blk2 n.qc).bind fun c => c.updateLock P blk2

/-- `on_receive_slice`; the index is converted to `unsigned`. -/
def onReceiveSlice (P : Primitives H Sig) (c : Core H Sig) (s : Slice H) : Res H Sig :=
  if s.validate P.sha256Hex then
    match c.sc.insertShard s.mBlkHash (s.mIndex % 2 ^ 32).toNat s.mData with
    | .error f => .fail c f
    | .ok (_, sc) => .ok { c with sc := sc }
  else .ok c

/-- The voting rule of `on_receive_proposal`: the opinion, and `vheight` with it. -/
def opinion (c : Core H Sig) (bnew : H) : Except Fault Bool :=
  if c.height bnew ≤ c.vheight then .ok false
  else if (c.qcRef bnew).any fun q => decide (c.height c.bLock < c.height q) then .ok true
  else (c.walkDown (c.height c.bLock) (c.height bnew + 1) bnew).map fun (_, b) => decide (b = c.bLock)

/-- The vote that `on_receive_proposal` sends. -/
def voteFor (P : Primitives H Sig) (c : Core H Sig) (bnew : H) : Vote H Sig :=
  { voter := c.id, blkHash := bnew, cert := { objHash := bnew, sig := P.sign c.id bnew } }

/-- The end of `on_receive_proposal`, from the voting rule on. -/
def castVote (P : Primitives H Sig) (c : Core H Sig) (prop : Proposal H) : Res H Sig :=
  match c.opinion prop.blk with
  | .error f => .fail c f
  | .ok opinion =>
    let c := if opinion then { c with vheight := c.height prop.blk } else c
    let finish := if prop.proposer = c.id then [] else (c.qcRef prop.blk).toList.map .onQcFinish
    let vote := if opinion && !c.voteDisabled then
      [.doVote prop.proposer (c.voteFor P prop.blk)] else []
    ⟨c, [], finish ++ .onReceiveProposal_ prop :: vote, none⟩

/-- `on_receive_proposal`. -/
def onReceiveProposal (P : Primitives H Sig) (c : Core H Sig) (prop : Proposal H) : Res H Sig :=
  if prop.sHash = P.hashSlice prop.slice ∧ prop.slice.validate P.sha256Hex then
    (c.onReceiveSlice P prop.slice).bind fun c =>
      (Res.emit c [.doBroadcastSlice prop.slice]).bind fun c =>
        (if prop.proposer = c.id then Res.ok c
          else if c.delivered prop.blk then c.update P prop.blk
          else Res.fail c (.throw .blockNotDelivered)).bind fun c =>
            c.castVote P prop
  else .fail c .assertion

/-- `on_receive_vote`. -/
def onReceiveVote (c : Core H Sig) (vote : Vote H Sig) : Res H Sig :=
  match c.storage vote.blkHash with
  | none => .fail c (.throw .blockNotDelivered)
  | some b =>
    if !b.delivered then .fail c (.throw .blockNotDelivered)
    else if c.config.nmajority ≤ b.voted.length then .ok c
    else if vote.voter ∈ b.voted then .ok c
    else
      let qc := b.selfQc.getD (.create c.config vote.blkHash)
      match qc.addPart vote.voter vote.cert with
      | .error e =>
        .fail (c.modify vote.blkHash fun b => { b with
          voted := vote.voter :: b.voted, selfQc := some qc }) (.throw e)
      | .ok qc =>
        let c := c.modify vote.blkHash fun b => { b with
          voted := vote.voter :: b.voted, selfQc := some qc }
        if b.voted.length + 1 = c.config.nmajority then
          (c.updateHqc vote.blkHash qc).bind fun c => ⟨c, [], [.onQcFinish vote.blkHash], none⟩
        else .ok c

/-- The serialised fields of the block that `on_propose` builds. -/
def proposedData (P : Primitives H Sig) (c : Core H Sig) (cmds : List UInt256)
    (parents : List H) (extra : Bytes) : BlockData H Sig :=
  { parentHashes := parents, cmds := [P.hashCommands cmds], qc := c.hqc.2, extra := extra }

/-- The block that `on_propose` builds. -/
def proposedBlock (P : Primitives H Sig) (c : Core H Sig) (cmds : List UInt256)
    (parents : List H) (p0 : H) (extra : Bytes) : Block H Sig :=
  { c.proposedData P cmds parents extra with
    parents := parents, qcRef := some c.hqc.1, selfQc := none, height := c.height p0 + 1,
    delivered := false, decision := false, voted := [] }

/-- `encode_input`: the commands, 32 bytes each. -/
def encodeInput (cmds : List UInt256) : Bytes := cmds.flatMap (·.bytes)

/-- The proposals made from the Merkle proofs of the shards. -/
def proposals (P : Primitives H Sig) (c : Core H Sig) (bnew : H) (proofs : List MerkleProof) :
    List (Proposal H) :=
  proofs.map fun proof =>
    let slice : Slice H := { proof with mBlkHash := bnew }
    { proposer := c.id, sHash := P.hashSlice slice, slice := slice, blk := bnew }

/-- `on_propose` from the encoding of the commands on. -/
def sendProposal (P : Primitives H Sig) (c : Core H Sig) (cmds : List UInt256) (bnew : H) :
    Res H Sig :=
  match c.rse.encode P.leopard (encodeInput cmds) with
  | .error f => .fail c f
  | .ok (rst, shards) =>
    if rst ≠ 0 then .fail c (.throw .encodeError)
    else
      match MerkleTree.proofs P.sha256Hex shards with
      | .error f => .fail c f
      | .ok proofs =>
        let props := c.proposals P bnew proofs
        if c.height bnew ≤ c.vheight then .fail c (.throw .notHigherThanVheight)
        else
          match props[c.id]? with
          | none => .fail c .undefined
          | some prop =>
            (c.onReceiveProposal P prop).bind fun c =>
              ⟨c, [], [.onPropose_ prop, .doBroadcastProposalWithSlice props, .pacemaker], none⟩

/-- The first part of `on_propose`: the parents are no tails any more, and the new block enters
the storage with an empty certificate of its own. -/
def storeProposed (P : Primitives H Sig) (c : Core H Sig) (cmds : List UInt256) (parents : List H)
    (p0 : H) (extra : Bytes) : Core H Sig :=
  let bnew := P.hashBlock (c.proposedData P cmds parents extra)
  let selfQc := QuorumCert.create c.config bnew
  let c := { c with tails := c.tails.filter (· ∉ parents) }
  let c := c.addBlk P (c.proposedBlock P cmds parents p0 extra)
  c.modify bnew fun b => { b with selfQc := some selfQc }

/-- `on_propose`. -/
def onPropose (P : Primitives H Sig) (c : Core H Sig) (cmds : List UInt256) (parents : List H)
    (extra : Bytes) : Res H Sig :=
  match parents.head? with
  | none => .fail c (.throw .emptyParents)
  | some p0 =>
    let bnew := P.hashBlock (c.proposedData P cmds parents extra)
    ((c.storeProposed P cmds parents p0 extra).onDeliverBlk bnew).bind fun c =>
      (c.update P bnew).bind fun c => c.sendProposal P cmds bnew

/-- The core after its constructor. -/
def new (P : Primitives H Sig) (id : ReplicaID) (dummy : QuorumCert H Sig) : Core H Sig :=
  let b0 : Block H Sig :=
    { parentHashes := [], cmds := [], qc := dummy, extra := [], parents := [], qcRef := none,
      selfQc := none, height := 0, delivered := true, decision := true, voted := [] }
  { id := id, b0 := P.genesisHash, hqc := (P.genesisHash, dummy), bLock := P.genesisHash,
    bExec := P.genesisHash, vheight := 0, tails := [P.genesisHash],
    config := { nreplicas := 0, nmajority := 0 }, voteDisabled := false,
    storage := Function.update (fun _ => none) P.genesisHash (some b0),
    rse := { originalCount := 0, recoveryCount := 0 },
    sc := { threshold := 0, nodenum := 0, shards := fun _ => none },
    futures := fun _ => none }

/-- `add_replica`. -/
def addReplica (c : Core H Sig) (rid : ReplicaID) : Core H Sig :=
  let c := c.modify c.b0 fun b => { b with voted := b.voted.insert rid }
  { c with config := { c.config with nreplicas := c.config.nreplicas + 1 } }

/-- `on_init`. -/
def onInit (c : Core H Sig) (nfaulty : Nat) : Core H Sig :=
  let config := { c.config with nmajority := c.config.nreplicas - nfaulty }
  let qc : QuorumCert H Sig := .create config c.b0
  let c := c.modify c.b0 fun b => { b with
    qc := qc, selfQc := some qc, qcRef := some c.b0 }
  { c with config := config, hqc := (c.b0, qc) }

end Core

/-- The calls that drive a core. -/
inductive Call (H Sig : Type)
  | addBlk (data : BlockData H Sig)
  | onDeliverBlk (blk : H)
  | onReceiveProposal (prop : Proposal H)
  | onReceiveVote (vote : Vote H Sig)
  | onReceiveSlice (slice : Slice H)
  | onPropose (cmds : List UInt256) (parents : List H) (extra : Bytes)
  | setVoteDisabled (f : Bool)

namespace Core

variable {H Sig : Type} [DecidableEq H]

def call (P : Primitives H Sig) (c : Core H Sig) : Call H Sig → Res H Sig
  | .addBlk data => .ok (c.addBlk P data.fetched)
  | .onDeliverBlk blk => c.onDeliverBlk blk
  | .onReceiveProposal prop => c.onReceiveProposal P prop
  | .onReceiveVote vote => c.onReceiveVote vote
  | .onReceiveSlice slice => c.onReceiveSlice P slice
  | .onPropose cmds parents extra => c.onPropose P cmds parents extra
  | .setVoteDisabled f => .ok { c with voteDisabled := f }

/-- A sequence of calls that all return or throw "safety breached": the state and all that
has been put out. -/
def calls (P : Primitives H Sig) : Core H Sig → List (Output H Sig) → List (Call H Sig) →
    Option (Core H Sig × List (Output H Sig))
  | c, log, [] => some (c, log)
  | c, log, i :: rest =>
    let r := c.call P i
    if r.exit = none ∨ r.exit = some (.throw .safetyBreached) then
      calls P r.core (log ++ r.outs) rest
    else none

end Core
end LibHotStuff
