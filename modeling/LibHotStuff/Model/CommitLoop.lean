import LibHotStuff.Model.Replica

namespace LibHotStuff

/-- The places of the commit loop at which an exception may come up. -/
inductive CommitPoint (H : Type)
  | doConsensus (blk : H)
  | get (blk : H)
  | doDecide (blk : H) (cmdIdx : Nat)
  deriving DecidableEq, Repr

namespace Core

variable {H Sig : Type} [DecidableEq H]

/-- The `do_decide` calls for one block from command `i` on, up to the first that throws. -/
def decideRaising (raises : CommitPoint H → Option Error) (c : Core H Sig) (blk : H) :
    Nat → List UInt256 → Res H Sig
  | _, [] => .ok c
  | i, cmd :: cmds =>
    let out := Output.doDecide
      { rid := c.id, decision := 1, cmdIdx := i, cmdHeight := c.height blk, cmdHash := cmd,
        blkHash := blk }
    match raises (.doDecide blk i) with
    | some e => ⟨c, [out], [], some (.throw e)⟩
    | none => (Res.emit c [out]).bind fun c => c.decideRaising raises blk (i + 1) cmds

/-- One turn of the commit loop, in which `do_consensus`, `get` and `do_decide` may throw. -/
def commitBlkRaising (raises : CommitPoint H → Option Error) (c : Core H Sig) (blk : H) : Res H Sig :=
  let c := c.modify blk fun b => { b with decision := true }
  match raises (.doConsensus blk) with
  | some e => ⟨c, [.doConsensus blk], [], some (.throw e)⟩
  | none =>
    match c.futures blk with
    | none => .emit c [.doConsensus blk]
    | some fu =>
      match raises (.get blk), fu with
      | some e, _ => ⟨c, [.doConsensus blk], [], some (.throw e)⟩
      | none, .error f => ⟨c, [.doConsensus blk], [], some f⟩
      | none, .ok cmds =>
        (Res.emit { c with futures := Function.update c.futures blk none, sc := c.sc.remove blk }
          [.doConsensus blk]).bind fun c => c.decideRaising raises blk 0 cmds

def commitAllRaising (raises : CommitPoint H → Option Error) (c : Core H Sig) : List H → Res H Sig
  | [] => .ok c
  | b :: bs => (c.commitBlkRaising raises b).bind fun c => c.commitAllRaising raises bs

/-- The end of `update` with this loop; an exception leaves `b_exec` as it was. -/
def commitRaising (raises : CommitPoint H → Option Error) (c : Core H Sig) (blk : H) : Res H Sig :=
  match c.walkDown (c.height c.bExec) (c.height blk + 1) blk with
  | .error f => .fail c f
  | .ok (queue, b) =>
    if b ≠ c.bExec then .fail c (.throw .safetyBreached)
    else (c.commitAllRaising raises queue.reverse).bind fun c => .ok { c with bExec := blk }

/-- The part of `update` after `update_hqc`, for any end of it. -/
def updateLockBy (P : Primitives H Sig) (commit : Core H Sig → H → Res H Sig) (c : Core H Sig)
    (blk2 : H) : Res H Sig :=
  match c.qcRef blk2 with
  | none => .ok c
  | some blk1 =>
    if c.decided blk1 then .ok c
    else
      (c.startDecode P blk1).bind fun c =>
        let c := c.lock blk1
        match c.qcRef blk1 with
        | none => .ok c
        | some blk =>
          if c.decided blk then .ok c
          else
            match c.parent0 blk2 with
            | none => .fail c .undefined
            | some p2 =>
              if p2 ≠ blk1 then .ok c
              else
                match c.parent0 blk1 with
                | none => .fail c .undefined
                | some p1 => if p1 ≠ blk then .ok c else commit c blk

/-- `update` for any end of it. -/
def updateBy (P : Primitives H Sig) (commit : Core H Sig → H → Res H Sig) (c : Core H Sig)
    (nblk : H) : Res H Sig :=
  match c.storage nblk with
  | none => .fail c .undefined
  | some n =>
    match n.qcRef with
    | none => .ok c
    | some blk2 =>
      if c.decided blk2 then .ok c
      else (c.updateHqc blk2 n.qc).bind fun c => c.updateLockBy P commit blk2

/-- `on_receive_proposal` for any `update`. -/
def onReceiveProposalBy (P : Primitives H Sig) (update : Core H Sig → H → Res H Sig)
    (c : Core H Sig) (prop : Proposal H) : Res H Sig :=
  if prop.sHash = P.hashSlice prop.slice ∧ prop.slice.validate P.sha256Hex then
    (c.onReceiveSlice P prop.slice).bind fun c =>
      (Res.emit c [.doBroadcastSlice prop.slice]).bind fun c =>
        (if prop.proposer = c.id then Res.ok c
          else if c.delivered prop.blk then update c prop.blk
          else Res.fail c (.throw .blockNotDelivered)).bind fun c =>
            c.castVote P prop
  else .fail c .assertion

/-- `on_propose` for any `update`; for the own proposal `on_receive_proposal` does not call it. -/
def onProposeBy (P : Primitives H Sig) (update : Core H Sig → H → Res H Sig) (c : Core H Sig)
    (cmds : List UInt256) (parents : List H) (extra : Bytes) : Res H Sig :=
  match parents.head? with
  | none => .fail c (.throw .emptyParents)
  | some p0 =>
    let bnew := P.hashBlock (c.proposedData P cmds parents extra)
    ((c.storeProposed P cmds parents p0 extra).onDeliverBlk bnew).bind fun c =>
      (update c bnew).bind fun c => c.sendProposal P cmds bnew

/-- A call in which the commit loop may throw. -/
def callRaising (P : Primitives H Sig) (raises : CommitPoint H → Option Error) (c : Core H Sig) :
    Call H Sig → Res H Sig
  | .onReceiveProposal prop =>
    c.onReceiveProposalBy P (updateBy P (commitRaising raises)) prop
  | .onPropose cmds parents extra =>
    c.onProposeBy P (updateBy P (commitRaising raises)) cmds parents extra
  | i => c.call P i

/-- The calls that the handlers make: what they call is delivered, and what they hand over has been
checked. -/
def permits (P : Primitives H Sig) (c : Core H Sig) : Call H Sig → Bool
  | .addBlk _ => true
  | .onDeliverBlk blk => Replica.deliverable P c blk
  | .onReceiveProposal prop =>
    decide (prop.proposer ≠ c.id) && prop.slice.decodable && c.delivered prop.blk
  | .onReceiveVote vote => decide (vote.cert.objHash = vote.blkHash) && c.delivered vote.blkHash
  | .onReceiveSlice s => s.decodable
  | .onPropose _ parents _ => parents.all c.delivered
  | .setVoteDisabled _ => false

end Core

/-- A core and what it has handed to the application. -/
structure Executing (H Sig : Type) where
  core : Core H Sig
  log : List (Output H Sig)

namespace Executing

variable {H Sig : Type} [DecidableEq H]

/-- One call, with the exceptions that come up in the commit loop. An exception ends the handler and
not the process. -/
def step (P : Primitives H Sig) (s : Executing H Sig)
    (e : Call H Sig × (CommitPoint H → Option Error)) : Option (Executing H Sig) :=
  if s.core.permits P e.1 then
    let r := s.core.callRaising P e.2 e.1
    match r.exit with
    | none => some ⟨r.core, s.log ++ r.outs⟩
    | some (.throw _) => some ⟨r.core, s.log ++ r.outs⟩
    | some _ => none
  else none

end Executing
end LibHotStuff
