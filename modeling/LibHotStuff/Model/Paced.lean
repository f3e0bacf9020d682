import LibHotStuff.Model.Network

namespace LibHotStuff

/-- What a replica has above its core, and how it takes part when the core runs. -/
structure Upper (H Sig A : Type) where
  /-- a call that the core makes -/
  observe : A → Output H Sig → A
  /-- how many votes there are: the blocks with `nmajority` of them -/
  count : (H → Bool) → A → A
  /-- an exception unwinds the functions that run -/
  unwind : A → A

/-- The network of replicas that have `A` above their cores, with the blocks that have been built
and their commands. -/
structure Paced (H Sig A : Type) where
  sys : Sys H Sig
  built : List (H × List UInt256)
  base : ReplicaID → A

namespace Paced

variable {H Sig A : Type} [DecidableEq H] [DecidableEq Sig]

def set (x : Paced H Sig A) (r : ReplicaID) (a : A) : Paced H Sig A :=
  { x with base := Function.update x.base r a }

/-- A step of the core of a replica; `a` is what the replica has above it by then. -/
def coreStep (P : Primitives H Sig) (D : Deployment) (U : Upper H Sig A) (x : Paced H Sig A)
    (e : Event H Sig) (a : A) : Option (Paced H Sig A) :=
  (Sys.stepBuilding P D (x.sys, x.built) e).map fun (sys, built) =>
    let old := x.sys.node e.at_
    let new := sys.node e.at_
    let a := (new.log.drop old.log.length).foldl U.observe a
    let a := U.count (fun blk => decide (new.core.config.nmajority ≤ (new.core.voters blk).length)) a
    let a := if old.thrown.length < new.thrown.length then U.unwind a else a
    { sys := sys, built := built, base := Function.update x.base e.at_ a }

/-- The pacemaker has asked for the certificate of the block; `waits` when the promise that it got
is of `qc_waiting`. -/
def awaitQc (P : Primitives H Sig) (D : Deployment) (x : Paced H Sig A) (r : ReplicaID) (blk : H)
    (waits : Bool) : Paced H Sig A :=
  if waits then { x with sys := (x.sys.step P D (.asyncQcFinish r blk)).getD x.sys } else x

end Paced
end LibHotStuff
