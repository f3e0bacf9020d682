import LibHotStuff.Library.Transition
import LibHotStuff.Model.Types
import Mathlib

namespace LibHotStuff

/-- What is called when a promise of `async_qc_finish` is resolved. -/
inductive QcCallback
  /-- of `proposer_schedule_next`: resolves the promise that `beat` has returned -/
  | resolveBeat (pm : Nat)
  /-- of `do_new_consensus` -/
  | newConsensus (x : Nat)
  deriving DecidableEq

/-- A `promise_t` of `qc_waiting`. Its callbacks are called when it is resolved; a promise that is
rejected drops them. -/
inductive QcPromise
  | pending (callbacks : List QcCallback)
  | resolved
  | rejected
  deriving DecidableEq

/-- What a `TimerEvent` calls when it expires. -/
inductive TimerCallback
  | onExpTimeout
  | rotate
  deriving DecidableEq

/-- What the functions that run have still to do. -/
inductive PMTask (H : Type)
  /-- `on_propose` runs, called by `do_new_consensus x` or by the application -/
  | proposing (x : Option Nat)
  | callback (cb : QcCallback)
  | scheduleNext
  /-- `locked = true` -/
  | lock
  | updateLastProposed
  /-- `qc_waiting.erase` -/
  | eraseQcWaiting (blk : H)
  /-- the end of `on_exp_timeout` -/
  | armRotate
  /-- the caller of `beat` gives the promise its callback, which may call `on_propose` -/
  | thenBeat (pm : Nat)
  deriving DecidableEq

/-- `PMRoundRobinProposer`, and what it sees of the core: `voted` holds of the blocks with
`nmajority` votes. Promises are numbered; so are those that `beat` returns. -/
structure PMRoundRobin (H : Type) where
  id : ReplicaID
  nreplicas : Nat
  b0 : H
  timer : Option TimerCallback
  proposer : ReplicaID
  propBlk : ReplicaID → Option H
  rotating : Bool
  /-- the callbacks of `reg_proposal` and `reg_receive_proposal` are registered -/
  regProposal : Bool
  regReceiveProposal : Bool
  pendingBeats : List Nat
  lastProposed : H
  locked : Bool
  pmQcFinish : Option Nat
  /-- the callback of `proposer_update_last_proposed` is registered -/
  pmWaitPropose : Bool
  pmQcManual : Option Nat
  voted : H → Bool
  qcWaiting : H → Option Nat
  promises : List QcPromise
  /-- the number of promises that `beat` has returned -/
  beats : Nat
  resolvedBeats : List Nat
  /-- the promises that the callers of `beat` have given their callbacks -/
  thenBeats : List Nat
  /-- calls that `stop_rotate` has handed to `async_call` -/
  asyncCalls : Nat
  tasks : List (PMTask H)

namespace PMRoundRobin

variable {H : Type} [DecidableEq H]

/-- `reject` on a handle: a promise that is settled stays as it is. -/
def reject (s : PMRoundRobin H) : Option Nat → PMRoundRobin H
  | none => s
  | some p =>
    match s.promises[p]? with
    | some (.pending _) => { s with promises := s.promises.set p .rejected }
    | _ => s

/-- `HotStuffCore::async_qc_finish`: the promise, and the state with it. -/
def asyncQcFinish (s : PMRoundRobin H) (blk : H) : Nat × PMRoundRobin H :=
  if s.voted blk then (s.promises.length, { s with promises := s.promises ++ [.resolved] })
  else
    match s.qcWaiting blk with
    | some p => (p, s)
    | none => (s.promises.length, { s with
        promises := s.promises ++ [.pending []]
        qcWaiting := Function.update s.qcWaiting blk (some s.promises.length) })

/-- `then`: the callback of a resolved promise is called at once. -/
def thenCall (s : PMRoundRobin H) (p : Nat) (cb : QcCallback) : PMRoundRobin H :=
  match s.promises[p]? with
  | some (.pending cbs) => { s with promises := s.promises.set p (.pending (cbs ++ [cb])) }
  | some .resolved => { s with tasks := .callback cb :: s.tasks }
  | _ => s

/-- `proposer_schedule_next`. -/
def proposerScheduleNext (s : PMRoundRobin H) : PMRoundRobin H :=
  match s.pendingBeats with
  | [] => s
  | pm :: rest =>
    if s.locked then s
    else
      let s := { s with pendingBeats := rest }.reject s.pmQcFinish
      let (p, s) := s.asyncQcFinish s.lastProposed
      { s with pmQcFinish := some p, tasks := .lock :: s.tasks }.thenCall p (.resolveBeat pm)

/-- `do_new_consensus` after `on_propose` has returned `blk`. -/
def doNewConsensus (s : PMRoundRobin H) (x : Nat) (blk : H) : PMRoundRobin H :=
  let s := s.reject s.pmQcManual
  let (p, s) := s.asyncQcFinish blk
  { s with pmQcManual := some p }.thenCall p (.newConsensus x)

/-- The rejections in `rotate` and `stop_rotate`. -/
def rejectAll (s : PMRoundRobin H) : PMRoundRobin H :=
  { (s.reject s.pmQcFinish).reject s.pmQcManual with pmWaitPropose := false }

/-- `rotate`. -/
def rotate (s : PMRoundRobin H) : PMRoundRobin H :=
  { s.rejectAll with
    regProposal := true, regReceiveProposal := true, propBlk := fun _ => none, rotating := true
    proposer := (s.proposer + 1) % s.nreplicas, timer := some .onExpTimeout }

/-- `stop_rotate`. -/
def stopRotate (s : PMRoundRobin H) : PMRoundRobin H :=
  { s.rejectAll with
    timer := none, rotating := false, locked := false, lastProposed := s.b0, pmWaitPropose := true
    asyncCalls := if s.proposer = s.id then s.asyncCalls + 1 else s.asyncCalls }

/-- `on_consensus`. -/
def onConsensus (s : PMRoundRobin H) (blk : H) : PMRoundRobin H :=
  let s := { s with timer := none }
  if s.propBlk s.proposer = some blk then s.stopRotate else s

/-- `impeach`. -/
def impeach (s : PMRoundRobin H) : PMRoundRobin H := if s.rotating then s else s.rotate

/-- `on_exp_timeout`. -/
def onExpTimeout (s : PMRoundRobin H) : PMRoundRobin H :=
  if s.proposer = s.id then { s with tasks := .proposing (some 0) :: .armRotate :: s.tasks }
  else { s with tasks := .armRotate :: s.tasks }

/-- `if (!pblk) pblk = prop.blk` -/
def notePropBlk (s : PMRoundRobin H) (rid : ReplicaID) (blk : H) : PMRoundRobin H :=
  match s.propBlk rid with
  | some _ => s
  | none => { s with propBlk := Function.update s.propBlk rid (some blk) }

/-- The callback of `reg_receive_proposal`, for a proposal of `rid`. -/
def onReceiveProposal_ (s : PMRoundRobin H) (rid : ReplicaID) (blk : H) : PMRoundRobin H :=
  if s.regReceiveProposal then { s.notePropBlk rid blk with regReceiveProposal := s.rotating }
  else s

/-- The callbacks of `reg_proposal` and `proposer_update_last_proposed`. -/
def onPropose_ (s : PMRoundRobin H) (blk : H) : PMRoundRobin H :=
  let s := if s.regProposal then { s.notePropBlk s.id blk with regProposal := s.rotating } else s
  if s.pmWaitPropose then
    { s with
      pmWaitPropose := false, lastProposed := blk, locked := false
      tasks := .scheduleNext :: .updateLastProposed :: s.tasks }
  else s

/-- `HotStuffCore::on_qc_finish`. -/
def onQcFinish (s : PMRoundRobin H) (blk : H) : PMRoundRobin H :=
  match s.qcWaiting blk with
  | none => s
  | some p =>
    let s : PMRoundRobin H := { s with tasks := .eraseQcWaiting blk :: s.tasks }
    match s.promises[p]? with
    | some (.pending cbs) => { s with
        promises := s.promises.set p .resolved, tasks := cbs.map .callback ++ s.tasks }
    | _ => s

/-- `beat`. A replica that is not the proposer gets a promise that is resolved. -/
def beat (s : PMRoundRobin H) : PMRoundRobin H :=
  if !s.rotating && s.proposer == s.id then
    { s with pendingBeats := s.pendingBeats ++ [s.beats], beats := s.beats + 1
             tasks := .scheduleNext :: .thenBeat s.beats :: s.tasks }
  else { s with
    beats := s.beats + 1, resolvedBeats := s.beats :: s.resolvedBeats
    tasks := .thenBeat s.beats :: s.tasks }

/-- What happens to the pacemaker. -/
inductive Event (H : Type)
  | impeach
  | expire
  /-- `on_consensus` for a committed block -/
  | consensus (blk : H)
  | received (rid : ReplicaID) (blk : H)
  /-- `on_propose_` for an own block -/
  | proposed (blk : H)
  /-- a block has got `nmajority` votes -/
  | majority (blk : H)
  | qcFinish (blk : H)
  | beat
  /-- the application calls `on_propose` -/
  | propose
  /-- `on_propose` returns -/
  | returns (blk : H)
  /-- an exception leaves `on_propose`, and the handler that runs -/
  | throws
  /-- a call of `async_call` runs; commands are waiting or not -/
  | tcall (waiting : Bool)
  /-- the functions that run go on -/
  | run

/-- The handler has come to an end, or runs in `on_propose`. -/
def atCore (s : PMRoundRobin H) : Bool :=
  match s.tasks with
  | [] => true
  | .proposing _ :: _ => true
  | _ => false

/-- The next step of the functions that run. -/
def runTask (s : PMRoundRobin H) : Option (PMRoundRobin H) :=
  match s.tasks with
  | [] => none
  | .proposing _ :: _ => none
  | .callback (.resolveBeat pm) :: rest =>
    some { s with
      resolvedBeats := pm :: s.resolvedBeats
      tasks := if pm ∈ s.thenBeats then .proposing none :: rest else rest }
  | .callback (.newConsensus x) :: rest =>
    if 3 ≤ x then some { s with tasks := rest }
    else some { s with tasks := .proposing (some (x + 1)) :: rest }
  | .scheduleNext :: rest => some { s with tasks := rest }.proposerScheduleNext
  | .lock :: rest => some { s with locked := true, tasks := rest }
  | .updateLastProposed :: rest => some { s with pmWaitPropose := true, tasks := rest }
  | .eraseQcWaiting blk :: rest =>
    some { s with qcWaiting := Function.update s.qcWaiting blk none, tasks := rest }
  | .armRotate :: rest => some { s with timer := some .rotate, tasks := rest }
  | .thenBeat pm :: rest =>
    some { s with
      thenBeats := pm :: s.thenBeats
      tasks := if pm ∈ s.resolvedBeats then .proposing none :: rest else rest }

/-- One event. Timers expire and `async_call` runs between two handlers. -/
def step (s : PMRoundRobin H) : Event H → Option (PMRoundRobin H)
  | .impeach => if s.atCore then some s.impeach else none
  | .expire =>
    if s.tasks.isEmpty then
      match s.timer with
      | none => none
      | some .onExpTimeout => some { s with timer := none }.onExpTimeout
      | some .rotate => some { s with timer := none }.rotate
    else none
  | .consensus blk => if s.atCore then some (s.onConsensus blk) else none
  | .received rid blk => if s.atCore then some (s.onReceiveProposal_ rid blk) else none
  | .proposed blk => if s.atCore then some (s.onPropose_ blk) else none
  | .majority blk =>
    if s.atCore then some { s with voted := Function.update s.voted blk true } else none
  | .qcFinish blk => if s.atCore then some (s.onQcFinish blk) else none
  | .beat => if s.atCore then some s.beat else none
  | .propose => if s.atCore then some { s with tasks := .proposing none :: s.tasks } else none
  | .returns blk =>
    match s.tasks with
    | .proposing (some x) :: rest => some ({ s with tasks := rest }.doNewConsensus x blk)
    | .proposing none :: rest => some { s with tasks := rest }
    | _ => none
  | .throws =>
    match s.tasks with
    | .proposing _ :: _ => some { s with tasks := [] }
    | _ => none
  | .tcall waiting =>
    if s.tasks.isEmpty && decide (0 < s.asyncCalls) then
      some { s with
        asyncCalls := s.asyncCalls - 1
        tasks := if waiting then [.proposing (some 0)] else [] }
    else none
  | .run => s.runTask

/-- A `PMRoundRobinProposer` after `init`; the genesis block counts as voted for. -/
def init (id : ReplicaID) (nreplicas : Nat) (b0 : H) : PMRoundRobin H :=
  stopRotate
    { id := id, nreplicas := nreplicas, b0 := b0, timer := none, proposer := 0
      propBlk := fun _ => none, rotating := false, regProposal := false
      regReceiveProposal := false, pendingBeats := [], lastProposed := b0, locked := false
      pmQcFinish := none, pmWaitPropose := false, pmQcManual := none
      voted := fun blk => decide (blk = b0), qcWaiting := fun _ => none, promises := [], beats := 0
      resolvedBeats := [], thenBeats := [], asyncCalls := 0, tasks := [] }

end PMRoundRobin
end LibHotStuff
