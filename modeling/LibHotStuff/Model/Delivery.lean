import LibHotStuff.Library.Promise
import LibHotStuff.Model.Environment

namespace LibHotStuff

/-- What a promise of `HotStuffBase` is for. -/
inductive Awaited (H Sig : Type)
  /-- of `blk_fetch_waiting` -/
  | fetched (blk : H)
  /-- of `blk_delivery_waiting` -/
  | delivered (blk : H)
  /-- of `Block::verify` -/
  | certified (qc : QuorumCert H Sig)
  /-- of `Vote::verify` -/
  | signed (vote : Vote H Sig)

/-- The callbacks that are attached to promises. -/
inductive Callback (H : Type)
  /-- the callback of `async_fetch_blk` in `async_deliver_blk` -/
  | fetched (blk : H)
  /-- entry `idx` of the values of an `all` -/
  | part (ctx idx : Nat)

/-- The callbacks of `all`. -/
inductive Then (H Sig : Type)
  | onDeliverBlk (blk : H) (data : BlockData H Sig)
  | onReceiveProposal (prop : Proposal H)
  | onReceiveVote (vote : Vote H Sig)
  | sendBlocks (replica : ReplicaID) (hashes : List H)

/-- An `all` with the values that have arrived. -/
structure All (H Sig : Type) where
  done : Then H Sig
  values : List (Option Bool)

/-- What the handler that runs has still to do. -/
inductive Frame (H Sig : Type)
  | call (k : Callback H) (v : Bool)
  /-- the rest of the parents in `async_deliver_blk`, and the promises collected so far -/
  | deliverParents (blk : H) (data : BlockData H Sig) (parents : List H) (pms : List Nat)
  | awaitProposal (prop : Proposal H) (pm : Nat)
  | awaitVote (vote : Vote H Sig) (pm : Nat)
  | onFetchBlk (blk : H)
  | eraseFetch (blk : H)
  | eraseDelivery (blk : H)

/-- The asynchronous part of `HotStuffBase` above the replica. A promise of a block is fulfilled
with `true`. -/
structure HotStuffBase (H Sig : Type) where
  replica : Replica H Sig
  blkFetchWaiting : H → Option Nat
  blkDeliveryWaiting : H → Option Nat
  promises : Promises (Awaited H Sig) (Callback H) Bool
  alls : List (All H Sig)
  frames : List (Frame H Sig)
  /-- the exceptions that have left a handler outside the core -/
  thrown : List Error
  halted : Bool

namespace QuorumCert

variable {H Sig : Type}

/-- The `verify` that uses a `VeriPool`: the result when it is known at once. -/
def asyncVerify (config : ReplicaConfig) (qc : QuorumCert H Sig) : Except Error (Option Bool) :=
  if (qc.signers.map Prod.fst).dedup.length < config.nmajority then .ok (some false)
  else if qc.signers.all fun s => decide (s.1 < config.nreplicas) then .ok none
  else .error .ridNotFound

/-- What the workers of the `VeriPool` find. -/
def poolVerify (P : Primitives H Sig) (qc : QuorumCert H Sig) : Bool :=
  qc.signers.all fun s => P.verifySig s.1 qc.objHash s.2

end QuorumCert

/-- `Vote::verify`. -/
def Vote.poolVerify {H Sig : Type} [DecidableEq H] (P : Primitives H Sig) (vote : Vote H Sig) : Bool :=
  P.verifySig vote.voter vote.cert.objHash vote.cert.sig && decide (vote.cert.objHash = vote.blkHash)

/-- What happens to a replica: the messages of its peers, with the source of each, the results of
the `VeriPool`, and the turns of the handler that runs. -/
inductive Input (H Sig : Type)
  | propose (src proposer : ReplicaID) (sHash : H) (slice : Slice H) (data : BlockData H Sig)
  | vote (src : ReplicaID) (vote : Vote H Sig)
  | reqBlock (src : ReplicaID) (hashes : List H)
  /-- the blocks that can be parsed, and whether these are all -/
  | respBlock (src : ReplicaID) (blks : List (BlockData H Sig)) (complete : Bool)
  | slice (src : ReplicaID) (hash : H) (slice : Slice H)
  | verified (pm : Nat)
  | proceed (ord : List H)
  | onPropose (ord : List H) (cmds : List UInt256) (parents : List H) (extra : Bytes)
  | asyncQcFinish (blk : H)
  | runTask (ord : List H) (toSelf : Bool)

namespace HotStuffBase

variable {H Sig : Type} [DecidableEq H]

def core (b : HotStuffBase H Sig) : Core H Sig := b.replica.core

/-- Between two handlers. -/
def idle (b : HotStuffBase H Sig) : Bool := !b.halted && b.frames.isEmpty && b.replica.idle

def throw (b : HotStuffBase H Sig) (e : Error) : HotStuffBase H Sig :=
  { b with frames := [], thrown := e :: b.thrown }

def halt (b : HotStuffBase H Sig) : HotStuffBase H Sig := { b with frames := [], halted := true }

/-- Takes over what the replica has done; an exception unwinds the handler. -/
def settle (b : HotStuffBase H Sig) (nd : Replica H Sig) : HotStuffBase H Sig :=
  { b with
    replica := nd
    frames := if nd.thrown = b.replica.thrown ∧ nd.halted = false then b.frames else [] }

def push (b : HotStuffBase H Sig) (fs : List (Frame H Sig)) : HotStuffBase H Sig :=
  { b with frames := fs ++ b.frames }

/-- Calls the callbacks of a promise, in order. -/
def calls (ks : List (Callback H × Bool)) : List (Frame H Sig) := ks.map fun k => .call k.1 k.2

def newPromise (b : HotStuffBase H Sig) (goal : Awaited H Sig) (state : PromiseState (Callback H) Bool) :
    HotStuffBase H Sig × Nat :=
  ({ b with promises := b.promises ++ [⟨goal, state⟩] }, b.promises.length)

def addBlk (P : Primitives H Sig) (b : HotStuffBase H Sig) (data : BlockData H Sig) :
    HotStuffBase H Sig :=
  { b with replica := { b.replica with core := b.core.addBlk P data.fetched } }

/-- `async_fetch_blk`; the requests to peers change nothing here. -/
def asyncFetchBlk (b : HotStuffBase H Sig) (blk : H) : HotStuffBase H Sig × Nat :=
  if (b.core.storage blk).isSome then b.newPromise (.fetched blk) (.fulfilled true)
  else
    match b.blkFetchWaiting blk with
    | some pm => (b, pm)
    | none =>
      let (b, pm) := b.newPromise (.fetched blk) (.pending [])
      ({ b with blkFetchWaiting := Function.update b.blkFetchWaiting blk (some pm) }, pm)

/-- `async_deliver_blk`; its caller goes on with `next` after the callbacks that run at once. -/
def asyncDeliverBlk (b : HotStuffBase H Sig) (blk : H) (next : Nat → Frame H Sig) :
    HotStuffBase H Sig :=
  if b.core.delivered blk then
    let (b, pm) := b.newPromise (.delivered blk) (.fulfilled true)
    b.push [next pm]
  else
    match b.blkDeliveryWaiting blk with
    | some pm => b.push [next pm]
    | none =>
      let (b, pm) := b.newPromise (.delivered blk) (.pending [])
      let b := { b with blkDeliveryWaiting := Function.update b.blkDeliveryWaiting blk (some pm) }
      let (b, f) := b.asyncFetchBlk blk
      let (ps, ks) := b.promises.subscribe f (.fetched blk)
      push { b with promises := ps } (calls ks ++ [next pm])

/-- `all(pms).then(done)`. -/
def await (b : HotStuffBase H Sig) (pms : List Nat) (done : Then H Sig) : HotStuffBase H Sig :=
  let ctx := b.alls.length
  let (ps, ks) := b.promises.subscribeAll (pms.zipIdx.map fun (pm, i) => (pm, .part ctx i))
  let a : All H Sig := { done := done, values := pms.map fun _ => none }
  let b := { b with promises := ps, alls := b.alls ++ [a] }
  b.push (calls ks)

/-- The callback of `async_fetch_blk` in `async_deliver_blk`. -/
def onFetched (b : HotStuffBase H Sig) (blk : H) : HotStuffBase H Sig :=
  match b.core.storage blk with
  | none => b.halt
  | some stored =>
    let data := stored.toBlockData
    let verified := if blk = b.core.b0 ∨ data.qc.objHash = b.core.b0 then .ok (some true)
      else data.qc.asyncVerify b.core.config
    match verified with
    | .error e => b.throw e
    | .ok r =>
      let (b, pm) := b.newPromise (.certified data.qc) (r.elim (.pending []) .fulfilled)
      let (b, q) := b.asyncFetchBlk data.qc.objHash
      b.push [.deliverParents blk data data.parentHashes [pm, q]]

/-- `HotStuffBase::on_deliver_blk`. The promise is rejected when the block was delivered before. -/
def onDeliverBlk (b : HotStuffBase H Sig) (blk : H) : HotStuffBase H Sig :=
  match b.core.storage blk with
  | none => b.halt
  | some stored =>
    if stored.parentHashes.all b.core.delivered then
      let res := b.core.onDeliverBlk blk
      let b := b.settle (b.replica.absorb [] [] res)
      if res.exit.isSome then b
      else
        match b.blkDeliveryWaiting blk with
        | none => b
        | some pm =>
          if stored.delivered then
            { b with
              promises := b.promises.reject pm
              blkDeliveryWaiting := Function.update b.blkDeliveryWaiting blk none }
          else
            let (ps, ks) := b.promises.resolve pm true
            push { b with promises := ps } (calls ks ++ [.eraseDelivery blk])
    else b.halt

/-- The callback of an `all`. -/
def fulfil (P : Primitives H Sig) (ord : List H) (b : HotStuffBase H Sig) (values : List (Option Bool)) :
    Then H Sig → HotStuffBase H Sig
  | .onDeliverBlk blk _ => if values[0]? = some (some true) then b.onDeliverBlk blk else b
  | .onReceiveProposal prop => b.settle (b.replica.absorb ord [] (b.core.onReceiveProposal P prop))
  | .onReceiveVote vote =>
    if values[1]? = some (some true) then
      b.settle (b.replica.absorb ord [] (b.core.onReceiveVote vote))
    else b
  | .sendBlocks _ _ => b

/-- A value arrives at an `all`. -/
def fill (P : Primitives H Sig) (ord : List H) (b : HotStuffBase H Sig) (ctx idx : Nat) (v : Bool) :
    HotStuffBase H Sig :=
  match b.alls[ctx]? with
  | none => b
  | some a =>
    let a := { a with values := a.values.set idx (some v) }
    let b := { b with alls := b.alls.set ctx a }
    if a.values.all Option.isSome then b.fulfil P ord a.values a.done else b

/-- The next thing that the handler does. -/
def run (P : Primitives H Sig) (ord : List H) (b : HotStuffBase H Sig) : Frame H Sig → HotStuffBase H Sig
  | .call (.fetched blk) _ => b.onFetched blk
  | .call (.part ctx idx) v => b.fill P ord ctx idx v
  | .deliverParents blk data [] pms => b.await pms (.onDeliverBlk blk data)
  | .deliverParents blk data (p :: ps) pms =>
    b.asyncDeliverBlk p fun pm => .deliverParents blk data ps (pms ++ [pm])
  | .awaitProposal prop pm => b.await [pm] (.onReceiveProposal prop)
  | .awaitVote vote pm =>
    if vote.voter < b.core.config.nreplicas then
      let (b, q) := b.newPromise (.signed vote) (.pending [])
      b.await [pm, q] (.onReceiveVote vote)
    else b.throw .ridNotFound
  | .onFetchBlk blk =>
    match b.blkFetchWaiting blk with
    | none => b
    | some pm =>
      let (ps, ks) := b.promises.resolve pm true
      push { b with promises := ps } (calls ks ++ [.eraseFetch blk])
  | .eraseFetch blk => { b with blkFetchWaiting := Function.update b.blkFetchWaiting blk none }
  | .eraseDelivery blk =>
    { b with blkDeliveryWaiting := Function.update b.blkDeliveryWaiting blk none }

/-- `propose_handler`. -/
def proposeHandler (P : Primitives H Sig) (b : HotStuffBase H Sig) (src proposer : ReplicaID) (sHash : H)
    (slice : Slice H) (data : BlockData H Sig) : HotStuffBase H Sig :=
  let b := b.addBlk P data
  let prop : Proposal H :=
    { proposer := proposer, sHash := sHash, slice := slice, blk := P.hashBlock data }
  if b.core.config.nreplicas ≤ proposer then b.throw .ridNotFound
  else if src ≠ proposer then b
  else b.asyncDeliverBlk prop.blk (.awaitProposal prop)

/-- `req_blk_handler`. -/
def reqBlkHandler (b : HotStuffBase H Sig) (src : ReplicaID) (hashes : List H) : HotStuffBase H Sig :=
  let (b, pms) := hashes.foldl
    (fun (b, pms) h => let (b, pm) := b.asyncFetchBlk h; (b, pms ++ [pm])) (b, [])
  if pms.isEmpty then b.throw .promiseMismatch else b.await pms (.sendBlocks src hashes)

/-- `resp_blk_handler`; a message that is too short leaves the blocks before its end in storage. -/
def respBlkHandler (P : Primitives H Sig) (b : HotStuffBase H Sig) (blks : List (BlockData H Sig))
    (complete : Bool) : HotStuffBase H Sig :=
  let b := blks.foldl (addBlk P) b
  if complete then b.push (blks.map fun data => .onFetchBlk (P.hashBlock data))
  else b.throw .ioFailure

/-- The `VeriPool` settles a promise. -/
def verified (P : Primitives H Sig) (b : HotStuffBase H Sig) (pm : Nat) : Option (HotStuffBase H Sig) :=
  let resolve (v : Bool) : HotStuffBase H Sig :=
    let (ps, ks) := b.promises.resolve pm v
    push { b with promises := ps } (calls ks)
  match b.promises[pm]? with
  | some ⟨.certified qc, .pending _⟩ => some (resolve (qc.poolVerify P))
  | some ⟨.signed vote, .pending _⟩ => some (resolve (vote.poolVerify P))
  | _ => none

/-- A step of the replica itself; the pacemaker and the core have a turn only when the handler
does not wait for them. -/
def ofReplica (P : Primitives H Sig) (b : HotStuffBase H Sig) (e : Event H Sig) :
    Option (HotStuffBase H Sig) :=
  if !b.halted && (b.frames.isEmpty || !b.replica.tasks.isEmpty) then
    (b.replica.handle P e).map b.settle
  else none

/-- A peer is another replica. -/
def peer (b : HotStuffBase H Sig) (src : ReplicaID) : Bool :=
  decide (src ≠ b.core.id) && decide (src < b.core.config.nreplicas)

def step (P : Primitives H Sig) (b : HotStuffBase H Sig) : Input H Sig → Option (HotStuffBase H Sig)
  | .propose src proposer sHash slice data =>
    if b.idle && b.peer src && slice.decodable then
      some (b.proposeHandler P src proposer sHash slice data)
    else none
  | .vote src vote =>
    if b.idle && b.peer src then some (b.asyncDeliverBlk vote.blkHash (.awaitVote vote)) else none
  | .reqBlock src hashes => if b.idle && b.peer src then some (b.reqBlkHandler src hashes) else none
  | .respBlock src blks complete =>
    if b.idle && b.peer src then some (b.respBlkHandler P blks complete) else none
  | .slice src hash slice => b.ofReplica P (.receiveSlice b.core.id src hash slice)
  | .verified pm => if b.idle then b.verified P pm else none
  | .proceed ord =>
    if !b.halted && b.replica.idle then
      match b.frames with
      | [] => none
      | f :: rest => some (run P ord { b with frames := rest } f)
    else none
  | .onPropose ord cmds parents extra =>
    b.ofReplica P (.propose b.core.id ord cmds parents extra)
  | .asyncQcFinish blk => b.ofReplica P (.asyncQcFinish b.core.id blk)
  | .runTask ord toSelf => b.ofReplica P (.runTask b.core.id ord toSelf)

/-- The block that `on_propose` builds. -/
def builds (P : Primitives H Sig) (b : HotStuffBase H Sig) : Input H Sig → Option H
  | .onPropose _ cmds parents extra => some (P.hashBlock (b.core.proposedData P cmds parents extra))
  | _ => none

/-- A step, with the blocks that the replica has built so far. -/
def stepBuilding (P : Primitives H Sig) (s : HotStuffBase H Sig × List H) (e : Input H Sig) :
    Option (HotStuffBase H Sig × List H) :=
  (s.1.step P e).map fun b => (b, (s.1.builds P e).toList ++ s.2)

/-- A replica after `start`. -/
def init (P : Primitives H Sig) (dummy : QuorumCert H Sig) (replicas : List NetAddr)
    (listenAddr : NetAddr) (id : ReplicaID) : HotStuffBase H Sig :=
  { replica := .init P dummy replicas listenAddr id, blkFetchWaiting := fun _ => none,
    blkDeliveryWaiting := fun _ => none, promises := [], alls := [], frames := [], thrown := [],
    halted := false }

/-- The states that are reached, whatever the peers send, when each step meets `cond`. -/
def Runs (P : Primitives H Sig) (dummy : QuorumCert H Sig) (replicas : List NetAddr)
    (listenAddr : NetAddr) (id : ReplicaID) (cond : HotStuffBase H Sig → Input H Sig → Prop)
    (b : HotStuffBase H Sig) : Prop :=
  Transition.Reaches (step P) cond (init P dummy replicas listenAddr id) b

end HotStuffBase
end LibHotStuff
