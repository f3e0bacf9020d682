import LibHotStuff.Model.CommitLoop

namespace LibHotStuff

namespace Core

variable {H Sig : Type} [DecidableEq H]

def parents (c : Core H Sig) (h : H) : List H := ((c.storage h).map (·.parents)).getD []

/-- The `block_t` to a block in the stored blocks, of which `keys` are the hashes, and in the fields
of the core. -/
def references (c : Core H Sig) (keys : List H) (blk : H) : Nat :=
  (keys.map fun h => (c.parents h).count blk + if c.qcRef h = some blk then 1 else 0).sum +
    c.tails.count blk + [c.b0, c.hqc.1, c.bLock, c.bExec].count blk

/-- The hashes of the stored blocks, and the blocks that the rest of the program holds. -/
structure Holders (H : Type) where
  keys : List H
  held : List H

/-- `EntityStorage::try_release_blk` at the top of the stack of `prune`: only the stack and the
storage refer to the block. -/
def tryReleaseBlk (c : Core H Sig) (ext : Holders H) (start : H) (rest : List H) (blk : H) :
    Core H Sig :=
  if c.references ext.keys blk + ext.held.count blk + (start :: rest).count blk = 0 then
    { c with storage := Function.update c.storage blk none }
  else c

/-- One turn of the loop of `prune`. -/
def pruneStep (ext : Holders H) (start : H) : Core H Sig × List H → Core H Sig × List H
  | (c, []) => (c, [])
  | (c, blk :: rest) =>
    match (c.parents blk).getLast? with
    | none => (c.tryReleaseBlk ext start rest blk, rest)
    | some parent =>
      (c.modify blk fun b => { b with qcRef := none, parents := b.parents.dropLast },
        parent :: blk :: rest)

/-- The loop, for some number of turns. -/
def pruneLoop (ext : Holders H) (start : H) : Nat → Core H Sig × List H → Option (Core H Sig)
  | _, (c, []) => some c
  | 0, _ => none
  | fuel + 1, s => pruneLoop ext start fuel (pruneStep ext start s)

/-- The edges to parents. -/
def edgeCount (c : Core H Sig) (keys : List H) : Nat := (keys.map fun h => (c.parents h).length).sum

/-- The block at which `prune` starts, if the chain is long enough. -/
def pruneStart (c : Core H Sig) : Nat → H → Option H
  | 0, start => some start
  | staleness + 1, start => (c.parents start).head?.bind (pruneStart c staleness)

/-- `HotStuffCore::prune`; each turn of the loop takes an edge or a block off the stack. -/
def prune (c : Core H Sig) (ext : Holders H) (staleness : Nat) : Option (Core H Sig) :=
  match c.pruneStart staleness c.bExec with
  | none => some c
  | some start =>
    pruneLoop ext start (2 * c.edgeCount ext.keys + 1)
      (c.modify start fun b => { b with qcRef := none }, [start])

end Core

/-- What is seen of a call: the calls that it makes, its votes with them, and how it ends. -/
structure Emitted (H Sig : Type) where
  outs : List (Output H Sig)
  exit : Option Fault
  deriving DecidableEq

/-- A vote that is sent after the last write to the state. -/
def Task.vote? {H Sig : Type} : Task H Sig → Option (Output H Sig)
  | .doVote last vote => some (.doVote last vote)
  | _ => none

def Res.emitted {H Sig : Type} (r : Res H Sig) : Emitted H Sig :=
  ⟨r.outs ++ r.tasks.filterMap Task.vote?, r.exit⟩

def Fault.halts : Fault → Bool
  | .throw _ => false
  | _ => true

/-- Two cores that are driven by the same calls, and of which one is pruned. -/
structure Pruning (H Sig : Type) where
  pruned : Core H Sig
  /-- the keys of `blk_cache` -/
  keys : List H
  unpruned : Core H Sig
  prunedLog : List (Emitted H Sig)
  unprunedLog : List (Emitted H Sig)
  halted : Bool

inductive PruneEvent (H Sig : Type)
  | call (i : Call H Sig)
  | prune (staleness : Nat) (held : List H)

namespace Pruning

variable {H Sig : Type} [DecidableEq H]

/-- A call, when the handler that would make it does not wait for a block. -/
def handled (P : Primitives H Sig) (c : Core H Sig) : Call H Sig → Res H Sig
  | .setVoteDisabled f => c.call P (.setVoteDisabled f)
  | i => if c.permits P i then c.call P i else .ok c

/-- The block that a call may store. -/
def stores (P : Primitives H Sig) (c : Core H Sig) : Call H Sig → Option H
  | .addBlk data => some (P.hashBlock data)
  | .onPropose cmds parents extra => some (P.hashBlock (c.proposedData P cmds parents extra))
  | _ => none

def step (P : Primitives H Sig) (s : Pruning H Sig) : PruneEvent H Sig → Option (Pruning H Sig)
  | .call i =>
    if s.halted then none
    else
      let p := handled P s.pruned i
      let u := handled P s.unpruned i
      some {
        pruned := p.core
        keys := ((stores P s.pruned i).toList ∪ s.keys).filter fun h => (p.core.storage h).isSome
        unpruned := u.core
        prunedLog := s.prunedLog ++ [p.emitted]
        unprunedLog := s.unprunedLog ++ [u.emitted]
        halted := p.exit.any Fault.halts || u.exit.any Fault.halts }
  | .prune staleness held =>
    (s.pruned.prune ⟨s.keys, held⟩ staleness).map fun p =>
      { s with pruned := p, keys := s.keys.filter fun h => (p.storage h).isSome }

/-- Both cores have been started. -/
def init (P : Primitives H Sig) (dummy : QuorumCert H Sig) (replicas : List Nat) (listenAddr : Nat)
    (id : ReplicaID) : Pruning H Sig :=
  let c := (Core.new P id dummy).start replicas listenAddr
  { pruned := c, keys := [P.genesisHash], unpruned := c, prunedLog := [], unprunedLog := [],
    halted := false }

end Pruning
end LibHotStuff
