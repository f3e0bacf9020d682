import LibHotStuff.Library.Promise
import LibHotStuff.Model.CommitLoop

namespace LibHotStuff

/-- A core with the promises that `async_qc_finish` returns. -/
structure QcWaiting (H Sig : Type) where
  core : Core H Sig
  promises : Promises H Unit Unit
  /-- `qc_waiting` -/
  waiting : H → Option Nat
  /-- the `on_qc_finish` calls that the handler has still to make -/
  todo : List H
  /-- the `on_qc_finish` calls that have resolved their promise and run its callbacks -/
  finishing : List H
  /-- the blocks that the certificates of received proposals are for -/
  certified : List H
  /-- to whom `async_qc_finish` has returned which promise for which block -/
  returned : List (Nat × H × Nat)
  /-- who has rejected which promise -/
  rejections : List (Nat × Nat)

inductive QcEvent (H Sig : Type)
  | call (i : Call H Sig)
  | onQcFinish
  | erase
  | asyncQcFinish (waiter : Nat) (blk : H)
  | reject (waiter pm : Nat)

/-- The block of an `on_qc_finish` call. -/
def Task.qcFinish? {H Sig : Type} : Task H Sig → Option H
  | .onQcFinish blk => some blk
  | _ => none

namespace QcWaiting

variable {H Sig : Type} [DecidableEq H]

/-- `blk->voted.size() >= config.nmajority`. -/
def voted (c : Core H Sig) (blk : H) : Bool := decide (c.config.nmajority ≤ (c.voters blk).length)

/-- The replica knows a certificate for the block: it has counted enough votes, or it has received
a proposal of which the `qc_ref` is the block. -/
def known (s : QcWaiting H Sig) (blk : H) : Bool :=
  voted s.core blk || decide (blk ∈ s.certified)

/-- `async_qc_finish`. -/
def asyncQcFinish (s : QcWaiting H Sig) (waiter : Nat) (blk : H) : QcWaiting H Sig :=
  let next := s.promises.length
  if voted s.core blk then
    { s with
      promises := s.promises ++ [⟨blk, .fulfilled ()⟩]
      returned := (waiter, blk, next) :: s.returned }
  else
    match s.waiting blk with
    | some pm => { s with returned := (waiter, blk, pm) :: s.returned }
    | none =>
      { s with
        promises := s.promises ++ [⟨blk, .pending []⟩]
        waiting := Function.update s.waiting blk (some next)
        returned := (waiter, blk, next) :: s.returned }

/-- `on_qc_finish` up to the end of the callbacks of the promise. -/
def onQcFinish (s : QcWaiting H Sig) : Option (QcWaiting H Sig) :=
  match s.todo with
  | [] => none
  | blk :: rest =>
    match s.waiting blk with
    | none => some { s with todo := rest }
    | some pm =>
      -- the second of two nested calls for one block erases what is not there any more
      if blk ∈ s.finishing then none
      else some { s with
        todo := rest, promises := (s.promises.resolve pm ()).1, finishing := blk :: s.finishing }

/-- The rest of `on_qc_finish`. -/
def erase (s : QcWaiting H Sig) : Option (QcWaiting H Sig) :=
  match s.finishing with
  | [] => none
  | blk :: rest =>
    some { s with waiting := Function.update s.waiting blk none, finishing := rest }

/-- The block that the certificate of a received proposal is for. -/
def certifies (c : Core H Sig) : Call H Sig → Option H
  | .onReceiveProposal prop => c.qcRef prop.blk
  | _ => none

/-- A call of the core. An exception unwinds every caller. -/
def call (P : Primitives H Sig) (s : QcWaiting H Sig) (i : Call H Sig) : Option (QcWaiting H Sig) :=
  if s.todo.isEmpty && s.core.permits P i then
    let r := s.core.call P i
    let s := { s with core := r.core, certified := (certifies s.core i).toList ++ s.certified }
    match r.exit with
    | none => some { s with todo := r.tasks.filterMap Task.qcFinish? }
    | some (.throw _) => some { s with finishing := [] }
    | some _ => none
  else none

def step (P : Primitives H Sig) (s : QcWaiting H Sig) : QcEvent H Sig → Option (QcWaiting H Sig)
  | .call i => s.call P i
  | .onQcFinish => s.onQcFinish
  | .erase => s.erase
  | .asyncQcFinish waiter blk =>
    if (s.core.storage blk).isSome then some (s.asyncQcFinish waiter blk) else none
  | .reject waiter pm =>
    if s.returned.any fun x => x.1 = waiter && x.2.2 = pm then
      some { s with
        promises := s.promises.reject pm, rejections := (waiter, pm) :: s.rejections }
    else none

/-- A core that has been started. -/
def init (P : Primitives H Sig) (dummy : QuorumCert H Sig) (replicas : List Nat) (listenAddr : Nat)
    (id : ReplicaID) : QcWaiting H Sig :=
  { core := (Core.new P id dummy).start replicas listenAddr, promises := [], waiting := fun _ => none,
    todo := [], finishing := [], certified := [], returned := [], rejections := [] }

end QcWaiting
end LibHotStuff
