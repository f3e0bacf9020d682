import LibHotStuff.Model.Wire

namespace LibHotStuff.Wire

variable {PubKey Sig : Type}

/-- `Secp256k1VeriTask`. -/
structure VeriTask (PubKey Sig : Type) where
  msg : UInt256
  pubkey : PubKey
  sig : Sig
  deriving DecidableEq

/-- `Secp256k1VeriTask::verify`. -/
def VeriTask.verify (F : Formats PubKey Sig) (task : VeriTask PubKey Sig) : Bool :=
  F.verifySig task.pubkey task.msg task.sig

/-- The promise that `verify` returns, with the tasks in the `VeriPool` that it waits for: what `all`
has collected of them, and how many are missing. -/
structure Verdict (PubKey Sig : Type) where
  tasks : List (VeriTask PubKey Sig)
  results : List (Option Bool)
  size : Nat
  settled : Option Bool

namespace Verdict

/-- A promise that is resolved when it is made. -/
def resolved (v : Bool) : Verdict PubKey Sig :=
  { tasks := [], results := [], size := 0, settled := some v }

/-- `mypromise::all`, when there is something to wait for. -/
def all (tasks : List (VeriTask PubKey Sig)) : Except Fault (Verdict PubKey Sig) :=
  if tasks.isEmpty then .error (.throw .promiseMismatch)
  else .ok { tasks := tasks, results := tasks.map fun _ => none, size := tasks.length, settled := none }

/-- The `VeriPool` has finished a task: its promise is resolved, once. -/
def finish (F : Formats PubKey Sig) (s : Verdict PubKey Sig) (i : Nat) : Option (Verdict PubKey Sig) :=
  match s.tasks[i]?, s.results[i]? with
  | some task, some none =>
    let results := s.results.set i (some (task.verify F))
    let size := s.size - 1
    some { s with
      results := results, size := size
      settled := if size = 0 then some (results.all fun v => v == some true) else s.settled }
  | _, _ => none

end Verdict

namespace QuorumCert

/-- The loop of the `verify` that uses a `VeriPool`: a task for each set bit. -/
def queueTasks (config : ReplicaConfig PubKey) (F : Formats PubKey Sig) (objHash : UInt256) :
    List Nat → Sigs Sig → Except Fault (List (VeriTask PubKey Sig)) × Sigs Sig
  | [], sigs => (.ok [], sigs)
  | i :: is, sigs =>
    let (sig, sigs) :=
      match sigs.lookup (key i) with
      | some sig => (sig, sigs)
      | none => (F.emptySig, sigs.insert (key i) F.emptySig)
    match config.replicaMap (key i) with
    | none => (.error (.throw .ridNotFound), sigs)
    | some pubkey =>
      let (tasks, sigs) := queueTasks config F objHash is sigs
      (tasks.map ({ msg := objHash, pubkey := pubkey, sig := sig } :: ·), sigs)

/-- `QuorumCertSecp256k1::verify` with a `VeriPool`: the promise, and `sigs` after it. -/
def asyncVerify (F : Formats PubKey Sig) (config : ReplicaConfig PubKey) (qc : QuorumCert Sig) :
    Except Fault (Verdict PubKey Sig) × Sigs Sig :=
  if qc.sigs.keys.card < config.nmajority then (.ok (.resolved false), qc.sigs)
  else
    let (tasks, sigs) := queueTasks config F qc.objHash (setBits qc.rids) qc.sigs
    (tasks.bind Verdict.all, sigs)

end QuorumCert
end LibHotStuff.Wire
