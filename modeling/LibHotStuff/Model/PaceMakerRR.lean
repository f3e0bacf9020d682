import LibHotStuff.Model.Paced
import LibHotStuff.Model.RoundRobin

namespace LibHotStuff

/-- A call of `on_propose` by the pacemaker: its commands, and when it runs the block that it builds
and the number of the calls that the handler has still to make after it. -/
structure ProposeCall (H : Type) where
  cmds : List UInt256
  running : Option (H × Nat)

/-- What a `HotStuffBase` with `PaceMakerRR` has beside its core and `PMHighTail`: the
`PMRoundRobinProposer`, and the commands. -/
structure RRBase (H : Type) where
  pm : PMRoundRobin H
  /-- what `exec_command` has been called with -/
  submitted : List UInt256
  cmdPending : List UInt256
  /-- the keys of the map -/
  decisionWaiting : List UInt256
  cmdPendingBuffer : List UInt256
  blkSize : Nat
  /-- the commands that the callbacks of the beats have captured, by the number of the beat -/
  beatCmds : List (List UInt256)
  /-- the calls of `on_propose` that run or are about to, the innermost first -/
  calls : List (ProposeCall H)

namespace RRBase

variable {H Sig : Type} [DecidableEq H]

/-- `exec_command`. -/
def execCommand (a : RRBase H) (cmd : UInt256) : RRBase H :=
  { a with submitted := cmd :: a.submitted, cmdPending := a.cmdPending ++ [cmd] }

/-- The handler of `cmd_pending`, for the next command. -/
def handleCommand (a : RRBase H) : Option (RRBase H) :=
  match a.cmdPending with
  | [] => none
  | cmd :: rest =>
    let a := { a with
      cmdPending := rest
      decisionWaiting :=
        if cmd ∈ a.decisionWaiting then a.decisionWaiting else a.decisionWaiting ++ [cmd] }
    if a.pm.proposer ≠ a.pm.id then some a
    else
      let buffer := a.cmdPendingBuffer ++ [cmd]
      if buffer.length < a.blkSize then some { a with cmdPendingBuffer := buffer }
      else some { a with
        cmdPendingBuffer := buffer.drop a.blkSize
        beatCmds := a.beatCmds ++ [buffer.take a.blkSize]
        pm := a.pm.beat }

/-- What the core tells: `do_consensus` and `do_decide`. -/
def observe (a : RRBase H) : Output H Sig → RRBase H
  | .doConsensus blk => { a with pm := a.pm.onConsensus blk }
  | .doDecide fin => { a with decisionWaiting := a.decisionWaiting.filter (· ≠ fin.cmdHash) }
  | _ => a

/-- The pacemaker is about to call `on_propose`. -/
def call (a : RRBase H) (cmds : List UInt256) : RRBase H :=
  { a with calls := ⟨cmds, none⟩ :: a.calls }

/-- The callback that the handler of `cmd_pending` has given to a beat: the promise has been
resolved with `proposer`. -/
def onBeat (a : RRBase H) (beat : Nat) : RRBase H :=
  if a.pm.proposer = a.pm.id then a.call (a.beatCmds.getD beat [])
  else { a with pm := { a.pm with tasks := a.pm.tasks.tail } }

/-- The functions of the pacemaker go on. -/
def runPacemaker (a : RRBase H) : Option (RRBase H) :=
  a.pm.runTask.map fun pm =>
    let a' := { a with pm := pm }
    match a.pm.tasks with
    | .callback (.resolveBeat beat) :: _ => if beat ∈ a.pm.thenBeats then a'.onBeat beat else a'
    | .thenBeat beat :: _ => if beat ∈ a.pm.resolvedBeats then a'.onBeat beat else a'
    | .callback (.newConsensus x) :: _ => if 3 ≤ x then a' else a'.call []
    | _ => a'

/-- The timer expires; `on_exp_timeout` may call `do_new_consensus` without commands. -/
def expire (a : RRBase H) : Option (RRBase H) :=
  (a.pm.step .expire).map fun pm =>
    match pm.tasks with
    | .proposing _ :: _ => { a with pm := pm }.call []
    | _ => { a with pm := pm }

/-- The call that `stop_rotate` has handed to `async_call`, with the commands in the order in which
the map has them. -/
def asyncCall (a : RRBase H) (cmds : List UInt256) : Option (RRBase H) :=
  if cmds.isPerm a.decisionWaiting then
    (a.pm.step (.tcall (!cmds.isEmpty))).map fun pm =>
      if cmds.isEmpty then { a with pm := pm } else { a with pm := pm }.call cmds
  else none

/-- The pacemaker sees what the next call of the handler does. -/
def onTask (a : RRBase H) : Task H Sig → RRBase H
  | .onQcFinish blk => { a with pm := a.pm.onQcFinish blk }
  | .onReceiveProposal_ prop => { a with pm := a.pm.onReceiveProposal_ prop.proposer prop.blk }
  | .onPropose_ prop => { a with pm := a.pm.onPropose_ prop.blk }
  | _ => a

/-- The handler may go on with what it has still to do: no function of the pacemaker runs but those
that wait for `on_propose`, and this has not come to its end. -/
def resting (a : RRBase H) (left : Nat) : Bool :=
  a.pm.atCore && match a.calls with
    | [] => true
    | ⟨_, none⟩ :: _ => false
    | ⟨_, some (_, below)⟩ :: _ => decide (left ≠ below + 1)

/-- How the core reaches it. -/
def upper : Upper H Sig (RRBase H) where
  observe := observe
  count voted a := { a with pm := { a.pm with voted := voted } }
  unwind a := { a with pm := { a.pm with tasks := [] }, calls := [] }

end RRBase

/-- The network of such replicas. -/
abbrev RRSys (H Sig : Type) := Paced H Sig (RRBase H)

/-- An event at a replica with `PaceMakerRR`. -/
inductive RREvent (H Sig : Type)
  | execCommand (r : ReplicaID) (cmd : UInt256)
  | handleCommand (r : ReplicaID)
  /-- a message, or a block of which nothing is missing any more -/
  | arrive (e : Event H Sig)
  | expire (r : ReplicaID)
  | asyncCall (r : ReplicaID) (cmds : List UInt256)
  /-- the application loses patience -/
  | impeach (r : ReplicaID)
  | runPacemaker (r : ReplicaID)
  /-- the pacemaker calls `on_propose` -/
  | propose (r : ReplicaID) (ord : List H)
  /-- `on_propose` returns -/
  | returns (r : ReplicaID)
  /-- the handler that runs makes its next call -/
  | runTask (r : ReplicaID) (ord : List H)

namespace RRSys

variable {H Sig : Type} [DecidableEq H] [DecidableEq Sig]

/-- Between two handlers. -/
def idle (x : RRSys H Sig) (r : ReplicaID) : Bool :=
  (x.sys.node r).idle && (x.base r).pm.tasks.isEmpty

/-- The pacemaker may have got a promise of `qc_waiting` for the block. -/
def awaitQc (P : Primitives H Sig) (D : Deployment) (x : RRSys H Sig) (r : ReplicaID) (blk : H) :
    RRSys H Sig :=
  Paced.awaitQc P D x r blk ((x.base r).pm.qcWaiting blk).isSome

/-- One event. -/
def step (P : Primitives H Sig) (D : Deployment) (x : RRSys H Sig) :
    RREvent H Sig → Option (RRSys H Sig)
  | .execCommand r cmd => some (x.set r ((x.base r).execCommand cmd))
  | .handleCommand r => if x.idle r then (x.base r).handleCommand.map (x.set r) else none
  | .arrive e =>
    match e with
    | .propose _ _ _ _ _ | .asyncQcFinish _ _ | .runTask _ _ _ => none
    | e => if x.idle e.at_ then x.coreStep P D RRBase.upper e (x.base e.at_) else none
  | .expire r => if x.idle r then (x.base r).expire.map (x.set r) else none
  | .asyncCall r cmds => if x.idle r then ((x.base r).asyncCall cmds).map (x.set r) else none
  | .impeach r =>
    if x.idle r then some (x.set r { x.base r with pm := (x.base r).pm.impeach }) else none
  | .runPacemaker r =>
    if (x.sys.node r).halted then none
    else (x.base r).runPacemaker.map fun a =>
      match (x.base r).pm.tasks with
      | .scheduleNext :: _ => awaitQc P D (x.set r a) r (x.base r).pm.lastProposed
      | _ => x.set r a
  | .propose r ord =>
    let a := x.base r
    let nd := x.sys.node r
    match a.calls with
    | ⟨cmds, none⟩ :: rest =>
      let bnew := P.hashBlock (nd.core.proposedData P cmds nd.getParents [])
      if a.pm.atCore then
        x.coreStep P D RRBase.upper (.propose r ord cmds nd.getParents [])
          { a with calls := ⟨cmds, some (bnew, nd.tasks.length)⟩ :: rest }
      else none
    | _ => none
  | .returns r =>
    let a := x.base r
    match a.calls with
    | ⟨_, some (blk, below)⟩ :: rest =>
      if (x.sys.node r).tasks.length = below + 1 then
        (a.pm.step (.returns blk)).bind fun pm =>
          (x.coreStep P D RRBase.upper (.runTask r [] false) { a with pm := pm, calls := rest }).map
            (awaitQc P D · r blk)
      else none
    | _ => none
  | .runTask r ord =>
    let a := x.base r
    match (x.sys.node r).tasks with
    | [] => none
    | task :: rest =>
      if a.resting (rest.length + 1) then
        let toSelf := match task with
          | .doVote last _ => decide (last = r)
          | _ => false
        x.coreStep P D RRBase.upper (.runTask r ord toSelf) (a.onTask task)
      else none

def init (P : Primitives H Sig) (D : Deployment) (dummy : QuorumCert H Sig) (blkSize : Nat) :
    RRSys H Sig :=
  { sys := Sys.init P D dummy, built := []
    base := fun r =>
      { pm := PMRoundRobin.init r D.n P.genesisHash, submitted := [], cmdPending := []
        decisionWaiting := [], cmdPendingBuffer := [], blkSize := blkSize, beatCmds := []
        calls := [] } }

/-- A call of `on_propose` has no command twice, and none of a block that the new one extends. -/
def unrepeated (x : RRSys H Sig) : RREvent H Sig → Bool
  | .propose r _ =>
    match (x.base r).calls with
    | ⟨cmds, none⟩ :: _ =>
      decide cmds.Nodup && x.built.all fun (b, cmds') =>
        !(x.sys.node r).core.checkAncestry b (x.sys.node r).hqcTail || cmds.all (· ∉ cmds')
    | _ => true
  | _ => true

end RRSys
end LibHotStuff
