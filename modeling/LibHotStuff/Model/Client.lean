import LibHotStuff.Model.PaceMakerDummy
import LibHotStuff.Model.Wire

namespace LibHotStuff

/-- `CommandDummy::serialize`. -/
def CommandDummy.serialize (cid n : UInt32) : Bytes :=
  DataStream.putUInt32 cid.toNat ++ DataStream.putUInt32 n.toNat

/-- The processes that run the client, with their options, and the hash of their commands. -/
structure Clients (A : Type) where
  sha256 : Bytes → UInt256
  cid : A → UInt32
  maxIterNum : A → Int
  maxAsyncNum : A → Nat
  sha256_injective : ∀ cid n cid' n', sha256 (CommandDummy.serialize cid n) =
    sha256 (CommandDummy.serialize cid' n') →
      CommandDummy.serialize cid n = CommandDummy.serialize cid' n'

/-- `CommandDummy::get_hash`. -/
def Clients.getHash {A : Type} (K : Clients A) (cid n : UInt32) : UInt256 :=
  K.sha256 (CommandDummy.serialize cid n)

/-- The client program; of the `Request`s in `waiting` it has `confirmed`. -/
structure Client where
  cid : UInt32
  cnt : UInt32
  maxIterNum : Int
  maxAsyncNum : Nat
  nfaulty : Nat
  waiting : List (UInt256 × Nat)
  /-- `while (try_send())` runs -/
  sending : Bool
  /-- the commands of which the client has told that it has got them -/
  confirmed : List UInt256

namespace Client

/-- `try_send`: the command that is sent to all replicas. -/
def trySend {A : Type} (K : Clients A) (c : Client) : Option (UInt256 × Client) :=
  if c.waiting.length < c.maxAsyncNum ∧ c.maxIterNum ≠ 0 then
    let cmd := K.getHash c.cid c.cnt
    some (cmd, { c with
      cnt := c.cnt + 1
      waiting := if c.waiting.any (·.1 = cmd) then c.waiting else c.waiting ++ [(cmd, 0)]
      maxIterNum := if 0 < c.maxIterNum then c.maxIterNum - 1 else c.maxIterNum })
  else none

/-- `client_resp_cmd_handler`, for a response about a command. -/
def respCmdHandler (c : Client) (cmd : UInt256) : Client :=
  match c.waiting.find? (·.1 = cmd) with
  | none => c
  | some (_, confirmed) =>
    if confirmed + 1 ≤ c.nfaulty then
      { c with waiting := c.waiting.map fun p => if p.1 = cmd then (p.1, p.2 + 1) else p }
    else
      { c with
        waiting := c.waiting.filter (·.1 ≠ cmd), confirmed := c.confirmed ++ [cmd], sending := true }

end Client

/-- A client after `connect_all`. -/
def Clients.init {A : Type} (K : Clients A) (D : Deployment) (i : A) : Client :=
  { cid := K.cid i, cnt := 0, maxIterNum := K.maxIterNum i, maxAsyncNum := K.maxAsyncNum i
    nfaulty := (D.n - 1) / 3, waiting := [], sending := true, confirmed := [] }

/-- Replicas that run `HotStuffApp`, and the processes of their clients; one that is started again is
another process. A callback of a command is named by the process that waits for its response. -/
structure ClientSys (H Sig A : Type) where
  replicas : DummySys H Sig A
  client : A → Client
  /-- the `MsgReqCmd` on their way -/
  requests : List (ReplicaID × UInt256 × A)
  /-- the places of the responses that have arrived, among the calls of the callbacks of a replica -/
  taken : List (ReplicaID × Nat)
  /-- the responses that clients have got: the client, the command and the replica -/
  responses : List (A × UInt256 × ReplicaID)

/-- An event of replicas and clients. -/
inductive ClientEvent (H Sig A : Type)
  | replica (e : DummyEvent H Sig A)
  /-- the next turn of `while (try_send())` -/
  | trySend (i : A)
  /-- a `MsgReqCmd` arrives -/
  | request (r : ReplicaID) (cmd : UInt256) (i : A)
  /-- a `MsgRespCmd` arrives -/
  | respond (r : ReplicaID) (place : Nat)
  /-- a Byzantine replica sends a `MsgRespCmd` -/
  | forge (r : ReplicaID) (cmd : UInt256) (i : A)

namespace ClientSys

variable {H Sig A : Type} [DecidableEq H] [DecidableEq Sig] [DecidableEq A]

/-- Client `i` gets a response of replica `r` about a command. -/
def getResponse (x : ClientSys H Sig A) (i : A) (cmd : UInt256) (r : ReplicaID) :
    ClientSys H Sig A :=
  { x with
    client := Function.update x.client i ((x.client i).respCmdHandler cmd)
    responses := (i, cmd, r) :: x.responses }

/-- One event. -/
def step (P : Primitives H Sig) (D : Deployment) (K : Clients A) (x : ClientSys H Sig A) :
    ClientEvent H Sig A → Option (ClientSys H Sig A)
  | .replica e =>
    match e with
    | .execCommand _ _ _ => none
    | e => (x.replicas.step P D e).map fun replicas => { x with replicas := replicas }
  | .trySend i =>
    let c := x.client i
    if c.sending then
      match c.trySend K with
      | none => some { x with client := Function.update x.client i { c with sending := false } }
      | some (cmd, c) =>
        some { x with
          client := Function.update x.client i c
          requests := x.requests ++ (List.range D.n).map fun r => (r, cmd, i) }
    else none
  | .request r cmd i =>
    if (r, cmd, i) ∈ x.requests then
      -- client_request_cmd_handler: the callback answers the client
      (x.replicas.step P D (.execCommand r cmd i)).map fun replicas =>
        { x with replicas := replicas, requests := x.requests.erase (r, cmd, i) }
    else none
  | .respond r place =>
    match (x.replicas.base r).replies[place]? with
    | none => none
    | some (i, call) =>
      if D.Correct r ∧ (r, place) ∉ x.taken ∧ (x.client i).sending = false then
        some ({ x with taken := (r, place) :: x.taken }.getResponse i call.cmdHash r)
      else none
  | .forge r cmd i =>
    if r < D.n ∧ ¬D.Correct r ∧ (x.client i).sending = false then
      some (x.getResponse i cmd r)
    else none

def init (P : Primitives H Sig) (D : Deployment) (K : Clients A) (dummy : QuorumCert H Sig)
    (blkSize : Nat) (fixed : Option ReplicaID) : ClientSys H Sig A :=
  { replicas := DummySys.init P D dummy blkSize fixed, client := K.init D, requests := []
    taken := [], responses := [] }

/-- No counter of a client wraps, and a Byzantine replica responds to a request at most once: the
client does not look at who sends it a response. -/
def fair (x : ClientSys H Sig A) : ClientEvent H Sig A → Bool
  | .trySend i => decide ((x.client i).cnt.toNat + 1 < 2 ^ 32)
  | .forge r cmd i => decide ((i, cmd, r) ∉ x.responses)
  | _ => true

/-- The states that are reached in a run with `cond` at each step. -/
def ReachableBy (P : Primitives H Sig) (D : Deployment) (K : Clients A) (dummy : QuorumCert H Sig)
    (blkSize : Nat) (fixed : Option ReplicaID) (cond : ClientSys H Sig A → ClientEvent H Sig A → Prop)
    (x : ClientSys H Sig A) : Prop :=
  Transition.Reaches (step P D K) cond (init P D K dummy blkSize fixed) x

end ClientSys
end LibHotStuff
