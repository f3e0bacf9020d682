import LibHotStuff.Library.Promise
import LibHotStuff.Model.Paced

namespace LibHotStuff

/-- What the functions of `PMWaitQC` and the callbacks of its promises have still to do. -/
inductive WaitTask (H : Type)
  /-- the callback of `async_qc_finish`: the promise of a beat is resolved -/
  | resolve (beat : Nat)
  | scheduleNext
  /-- `locked = true` -/
  | lock
  | updateLastProposed
  /-- `qc_waiting.erase` -/
  | eraseQcWaiting (blk : H)
  /-- the caller of `beat` gives the promise its callback -/
  | thenBeat (beat : Nat)
  /-- the callback of a beat calls `on_propose` -/
  | propose (beat : Nat)
  /-- `on_propose` runs and builds the block; its handler has `below` calls to make after it -/
  | proposing (blk : H) (below : Nat)
  deriving DecidableEq

/-- `PMWaitQC`, and what it sees of the core. The promises that `beat` returns are numbered; the
callbacks of the other promises each resolve one of them. -/
structure PMWaitQC (H : Type) where
  id : ReplicaID
  /-- `PaceMakerDummyFixed::proposer`; a `PaceMakerDummy` has none -/
  fixed : Option ReplicaID
  pendingBeats : List Nat
  lastProposed : H
  locked : Bool
  pmQcFinish : Option Nat
  /-- the callback of `update_last_proposed` is registered -/
  pmWaitPropose : Bool
  /-- the blocks with `nmajority` votes -/
  voted : H → Bool
  qcWaiting : H → Option Nat
  promises : Promises H Nat Unit
  /-- the number of promises that `beat` has returned -/
  beats : Nat
  resolvedBeats : List Nat
  /-- the promises that have been given their callbacks -/
  thenBeats : List Nat
  tasks : List (WaitTask H)

namespace PMWaitQC

variable {H : Type} [DecidableEq H]

/-- `get_proposer`. -/
def proposer (s : PMWaitQC H) : ReplicaID := s.fixed.getD s.id

/-- What `beat_resp` resolves its promise with. -/
def beatResp (s : PMWaitQC H) (lastProposer : ReplicaID) : ReplicaID := s.fixed.getD lastProposer

/-- `HotStuffCore::async_qc_finish`: the promise, and the state with it. -/
def asyncQcFinish (s : PMWaitQC H) (blk : H) : Nat × PMWaitQC H :=
  let next := s.promises.length
  if s.voted blk then (next, { s with promises := s.promises ++ [⟨blk, .fulfilled ()⟩] })
  else
    match s.qcWaiting blk with
    | some pm => (pm, s)
    | none => (next, { s with
        promises := s.promises ++ [⟨blk, .pending []⟩]
        qcWaiting := Function.update s.qcWaiting blk (some next) })

/-- `schedule_next`. -/
def scheduleNext (s : PMWaitQC H) : PMWaitQC H :=
  match s.pendingBeats with
  | [] => s
  | beat :: rest =>
    if s.locked then s
    else
      let s := { s with
        pendingBeats := rest, promises := s.pmQcFinish.elim s.promises s.promises.reject }
      let (pm, s) := s.asyncQcFinish s.lastProposed
      let (promises, calls) := s.promises.subscribe pm beat
      { s with
        pmQcFinish := some pm, promises := promises
        tasks := calls.map (fun k => .resolve k.1) ++ .lock :: s.tasks }

/-- The callback of `update_last_proposed`. -/
def onPropose_ (s : PMWaitQC H) (blk : H) : PMWaitQC H :=
  if s.pmWaitPropose then
    { s with
      pmWaitPropose := false, lastProposed := blk, locked := false
      tasks := .scheduleNext :: .updateLastProposed :: s.tasks }
  else s

/-- `HotStuffCore::on_qc_finish`. -/
def onQcFinish (s : PMWaitQC H) (blk : H) : PMWaitQC H :=
  match s.qcWaiting blk with
  | none => s
  | some pm =>
    let (promises, calls) := s.promises.resolve pm ()
    { s with
      promises := promises
      tasks := calls.map (fun k => .resolve k.1) ++ .eraseQcWaiting blk :: s.tasks }

/-- `beat`, and its caller. -/
def beat (s : PMWaitQC H) : PMWaitQC H :=
  { s with
    pendingBeats := s.pendingBeats ++ [s.beats], beats := s.beats + 1
    tasks := .scheduleNext :: .thenBeat s.beats :: s.tasks }

/-- What the callback that the handler of `cmd_pending` gives a beat does when it is called. -/
def onBeat (s : PMWaitQC H) (beat : Nat) : List (WaitTask H) :=
  if s.proposer = s.id then [.propose beat] else []

/-- The next step of the functions that run. -/
def runTask (s : PMWaitQC H) : Option (PMWaitQC H) :=
  match s.tasks with
  | [] => none
  | .propose _ :: _ => none
  | .proposing _ _ :: _ => none
  | .resolve beat :: rest =>
    some { s with
      resolvedBeats := beat :: s.resolvedBeats
      tasks := if beat ∈ s.thenBeats then s.onBeat beat ++ rest else rest }
  | .scheduleNext :: rest => some { s with tasks := rest }.scheduleNext
  | .lock :: rest => some { s with locked := true, tasks := rest }
  | .updateLastProposed :: rest => some { s with pmWaitPropose := true, tasks := rest }
  | .eraseQcWaiting blk :: rest =>
    some { s with qcWaiting := Function.update s.qcWaiting blk none, tasks := rest }
  | .thenBeat beat :: rest =>
    some { s with
      thenBeats := beat :: s.thenBeats
      tasks := if beat ∈ s.resolvedBeats then s.onBeat beat ++ rest else rest }

/-- A `PMWaitQC` after `init`. -/
def init (id : ReplicaID) (fixed : Option ReplicaID) (b0 : H) : PMWaitQC H :=
  { id := id, fixed := fixed, pendingBeats := [], lastProposed := b0, locked := false
    pmQcFinish := none, pmWaitPropose := true, voted := fun blk => decide (blk = b0)
    qcWaiting := fun _ => none, promises := [], beats := 0, resolvedBeats := [], thenBeats := []
    tasks := [] }

end PMWaitQC

/-- What a `commit_cb_t` is called with. -/
inductive CommitCall (H : Type)
  /-- `Finality(id, 0, 0, 0, cmd_hash, uint256_t())` -/
  | waiting (rid : ReplicaID) (cmd : UInt256)
  | decided (fin : Finality H)
  deriving DecidableEq

/-- The command that a call is about. -/
def CommitCall.cmdHash {H : Type} : CommitCall H → UInt256
  | .waiting _ cmd => cmd
  | .decided fin => fin.cmdHash

/-- What a `HotStuffBase` with `PaceMakerDummy` or `PaceMakerDummyFixed` has beside its core and
`PMHighTail`: the `PMWaitQC`, and the commands with their callbacks, which are named by `C`. -/
structure DummyBase (H C : Type) where
  pm : PMWaitQC H
  /-- what `exec_command` has been called with -/
  submitted : List (UInt256 × C)
  cmdPending : List (UInt256 × C)
  decisionWaiting : List (UInt256 × C)
  cmdPendingBuffer : List UInt256
  blkSize : Nat
  /-- the commands that the callbacks of the beats have captured, by the number of the beat -/
  beatCmds : List (List UInt256)
  /-- the calls of the callbacks that have been made -/
  replies : List (C × CommitCall H)

namespace DummyBase

variable {H Sig C : Type} [DecidableEq H]

/-- `exec_command`. -/
def execCommand (a : DummyBase H C) (cmd : UInt256) (callback : C) : DummyBase H C :=
  { a with
    submitted := a.submitted ++ [(cmd, callback)], cmdPending := a.cmdPending ++ [(cmd, callback)] }

/-- The command enters `decision_waiting`; when it is there already, the callback is called. -/
def await (a : DummyBase H C) (cmd : UInt256) (callback : C) : DummyBase H C :=
  if a.decisionWaiting.any (·.1 = cmd) then
    { a with replies := a.replies ++ [(callback, .waiting a.pm.id cmd)] }
  else { a with decisionWaiting := a.decisionWaiting ++ [(cmd, callback)] }

/-- The command enters `cmd_pending_buffer`; when there are enough of them, a beat is made. -/
def buffer (a : DummyBase H C) (cmd : UInt256) : DummyBase H C :=
  let cmds := a.cmdPendingBuffer ++ [cmd]
  if cmds.length < a.blkSize then { a with cmdPendingBuffer := cmds }
  else { a with
    cmdPendingBuffer := cmds.drop a.blkSize, beatCmds := a.beatCmds ++ [cmds.take a.blkSize]
    pm := a.pm.beat }

/-- The handler of `cmd_pending`, for the next command. -/
def handleCommand (a : DummyBase H C) : Option (DummyBase H C) :=
  match a.cmdPending with
  | [] => none
  | (cmd, callback) :: rest =>
    let a := { a with cmdPending := rest }.await cmd callback
    some (if a.pm.proposer = a.pm.id then a.buffer cmd else a)

/-- `do_decide`: the callback of the command is called, if it is still there. -/
def observe (a : DummyBase H C) : Output H Sig → DummyBase H C
  | .doDecide fin =>
    match a.decisionWaiting.find? (·.1 = fin.cmdHash) with
    | none => a
    | some (_, callback) =>
      { a with
        decisionWaiting := a.decisionWaiting.filter (·.1 ≠ fin.cmdHash)
        replies := a.replies ++ [(callback, .decided fin)] }
  | _ => a

/-- The pacemaker sees what the next call of the handler does. -/
def onTask (a : DummyBase H C) : Task H Sig → DummyBase H C
  | .onQcFinish blk => { a with pm := a.pm.onQcFinish blk }
  | .onPropose_ prop => { a with pm := a.pm.onPropose_ prop.blk }
  | _ => a

/-- The handler may make its next call of `left`: no function of the pacemaker runs but those that
wait for `on_propose`, and this has not come to its end. -/
def resting (a : DummyBase H C) (left : Nat) : Bool :=
  match a.pm.tasks with
  | [] => true
  | .proposing _ below :: _ => decide (left ≠ below + 1)
  | _ => false

/-- How the core reaches it. -/
def upper : Upper H Sig (DummyBase H C) where
  observe := observe
  count voted a := { a with pm := { a.pm with voted := voted } }
  unwind a := { a with pm := { a.pm with tasks := [] } }

end DummyBase

/-- The network of such replicas. -/
abbrev DummySys (H Sig C : Type) := Paced H Sig (DummyBase H C)

/-- An event at a replica with `PaceMakerDummy` or `PaceMakerDummyFixed`. -/
inductive DummyEvent (H Sig C : Type)
  | execCommand (r : ReplicaID) (cmd : UInt256) (callback : C)
  | handleCommand (r : ReplicaID)
  /-- a message, or a block of which nothing is missing any more -/
  | arrive (e : Event H Sig)
  | runPacemaker (r : ReplicaID)
  /-- the callback of a beat calls `on_propose` -/
  | propose (r : ReplicaID) (ord : List H)
  /-- `on_propose` returns -/
  | returns (r : ReplicaID)
  /-- the handler that runs makes its next call -/
  | runTask (r : ReplicaID) (ord : List H)

namespace DummySys

variable {H Sig C : Type} [DecidableEq H] [DecidableEq Sig]

/-- Between two handlers. -/
def idle (x : DummySys H Sig C) (r : ReplicaID) : Bool :=
  (x.sys.node r).idle && (x.base r).pm.tasks.isEmpty

/-- `do_vote` hands the vote to the replica itself. -/
def toSelf (a : DummyBase H C) : Task H Sig → Bool
  | .doVote last _ => decide (a.pm.beatResp last = a.pm.id)
  | _ => false

/-- One event. -/
def step (P : Primitives H Sig) (D : Deployment) (x : DummySys H Sig C) :
    DummyEvent H Sig C → Option (DummySys H Sig C)
  | .execCommand r cmd callback => some (x.set r ((x.base r).execCommand cmd callback))
  | .handleCommand r => if x.idle r then (x.base r).handleCommand.map (x.set r) else none
  | .arrive e =>
    match e with
    | .propose _ _ _ _ _ | .asyncQcFinish _ _ | .runTask _ _ _ => none
    | e => if x.idle e.at_ then x.coreStep P D DummyBase.upper e (x.base e.at_) else none
  | .runPacemaker r =>
    let a := x.base r
    if (x.sys.node r).halted then none
    else a.pm.runTask.map fun pm =>
      let y : DummySys H Sig C := x.set r { a with pm := pm }
      match a.pm.tasks with
      | .scheduleNext :: _ => y.awaitQc P D r pm.lastProposed (pm.qcWaiting pm.lastProposed).isSome
      | _ => y
  | .propose r ord =>
    let a := x.base r
    let nd := x.sys.node r
    match a.pm.tasks with
    | .propose beat :: rest =>
      let cmds := a.beatCmds.getD beat []
      let bnew := P.hashBlock (nd.core.proposedData P cmds nd.getParents [])
      x.coreStep P D DummyBase.upper (.propose r ord cmds nd.getParents [])
        { a with pm := { a.pm with tasks := .proposing bnew nd.tasks.length :: rest } }
    | _ => none
  | .returns r =>
    let a := x.base r
    match a.pm.tasks with
    | .proposing _ below :: rest =>
      if (x.sys.node r).tasks.length = below + 1 then
        x.coreStep P D DummyBase.upper (.runTask r [] false)
          { a with pm := { a.pm with tasks := rest } }
      else none
    | _ => none
  | .runTask r ord =>
    let a := x.base r
    match (x.sys.node r).tasks with
    | [] => none
    | task :: rest =>
      if a.resting (rest.length + 1) then
        x.coreStep P D DummyBase.upper (.runTask r ord (toSelf a task)) (a.onTask task)
      else none

/-- The replicas after `start`; `fixed` is the proposer of a `PaceMakerDummyFixed`. -/
def init (P : Primitives H Sig) (D : Deployment) (dummy : QuorumCert H Sig) (blkSize : Nat)
    (fixed : Option ReplicaID) : DummySys H Sig C :=
  { sys := Sys.init P D dummy, built := []
    base := fun r =>
      { pm := PMWaitQC.init r fixed P.genesisHash, submitted := [], cmdPending := []
        decisionWaiting := [], cmdPendingBuffer := [], blkSize := blkSize, beatCmds := []
        replies := [] } }

/-- The states that are reached in any run. -/
def Reachable (P : Primitives H Sig) (D : Deployment) (dummy : QuorumCert H Sig) (blkSize : Nat)
    (fixed : Option ReplicaID) (x : DummySys H Sig C) : Prop :=
  Transition.Reaches (step P D) (fun _ _ => True) (init P D dummy blkSize fixed) x

end DummySys
end LibHotStuff
