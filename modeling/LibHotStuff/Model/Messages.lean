import LibHotStuff.Model.Delivery
import LibHotStuff.Model.Wire

namespace LibHotStuff

open DataStream

/-- The opcodes of the messages between replicas. -/
inductive Opcode
  | propose
  | vote
  | reqBlock
  | respBlock
  | slice
  deriving DecidableEq, Repr

variable {PubKey H Sig : Type}

/-- The slice as the core sees it. -/
def Slice.toCore (name : UInt256 → H) (s : Slice UInt256) : Slice H :=
  { s with mBlkHash := name s.mBlkHash }

namespace Wire

/-- The fields of a block as the core sees them. -/
def Block.toCore (name : UInt256 → H) (b : Block Sig) : BlockData H Sig :=
  { parentHashes := b.parentHashes.map name, cmds := b.cmds.map name, qc := b.qc.toCore name
    extra := b.extra }

/-- `MsgPropose::postponed_parse`; `propose_handler` puts the block into the storage. -/
def parsePropose (F : Formats PubKey Sig) (name : UInt256 → H) (src : ReplicaID) :
    DataStream (Input H Sig) := do
  let (prop, _) ← Proposal.unserialize F fun _ => none
  return .propose src prop.proposer (name prop.sHash) (prop.slice.toCore name)
    (prop.blk.toCore name)

/-- `MsgVote::postponed_parse`: `Vote::unserialize` with a `PartCertSecp256k1`. -/
def parseVote (F : Formats PubKey Sig) (name : UInt256 → H) (src : ReplicaID) :
    DataStream (Input H Sig) := do
  let voter ← Codec.uint (.throw .ioFailure) 2
  let blkHash ← getUInt256
  let objHash ← getUInt256
  let sig ← F.getSig
  return .vote src
    { voter := voter, blkHash := name blkHash, cert := { objHash := name objHash, sig := sig } }

/-- The constructor of `MsgReqBlock`. -/
def parseReqBlock (name : UInt256 → H) (src : ReplicaID) : DataStream (Input H Sig) := do
  let hashes ← Block.getHashes
  return .reqBlock src (hashes.map name)

/-- The loop of `MsgRespBlock::postponed_parse`: the blocks that enter the storage, and how it
ends. -/
def parseBlocks (F : Formats PubKey Sig) : Nat → Bytes → List (Block Sig) × Except Fault Unit
  | 0, _ => ([], .ok ())
  | n + 1, bs =>
    match Block.unserialize F bs with
    | .error f => ([], .error f)
    | .ok ((b, _), rest) =>
      let (blks, r) := parseBlocks F n rest
      (b :: blks, r)

/-- `MsgRespBlock::postponed_parse`. An exception leaves the blocks before it in the storage. -/
def parseRespBlock (F : Formats PubKey Sig) (name : UInt256 → H) (src : ReplicaID) :
    DataStream (Input H Sig) := do
  let n ← getUInt32
  let bs ← get
  let (blks, r) := parseBlocks F n bs
  match r with
  | .ok _ => return .respBlock src (blks.map (Block.toCore name)) true
  | .error (.throw _) => return .respBlock src (blks.map (Block.toCore name)) false
  | .error f => throw f

/-- `MsgSlice::postponed_parse`. -/
def parseSlice (name : UInt256 → H) (src : ReplicaID) : DataStream (Input H Sig) := do
  let hash ← getUInt256
  let slice ← Slice.unserialize
  return .slice src (name hash) (slice.toCore name)

/-- `Vote`, with a `PartCertSecp256k1`. -/
structure Vote (Sig : Type) where
  voter : ReplicaID
  blkHash : UInt256
  objHash : UInt256
  sig : Sig

/-- What the constructors of the messages are given. -/
inductive Message (Sig : Type)
  | propose (prop : Proposal Sig)
  | vote (vote : Vote Sig)
  | reqBlock (blkHashes : List UInt256)
  | respBlock (blks : List (Block Sig))
  | slice (slice : Slice UInt256)

namespace Message

def opcode : Message Sig → Opcode
  | propose _ => .propose
  | vote _ => .vote
  | reqBlock _ => .reqBlock
  | respBlock _ => .respBlock
  | slice _ => .slice

/-- The loop of the constructor of `MsgRespBlock`. -/
def putBlocks (F : Formats PubKey Sig) : List (Block Sig) → Except Fault Bytes
  | [] => .ok []
  | b :: blks => do
    let bs ← b.serialize F
    let rest ← putBlocks F blks
    return bs ++ rest

/-- The constructors of the messages: what they put into `serialized`. -/
def serialize (F : Formats PubKey Sig) : Message Sig → Except Fault Bytes
  | propose prop => prop.serialize F
  | vote v => .ok (Codec.leBytes 2 v.voter ++ (v.blkHash.bytes ++ (v.objHash.bytes ++ F.putSig v.sig)))
  | reqBlock hashes => .ok (Block.putHashes hashes)
  | respBlock blks => (putBlocks F blks).map (putUInt32 blks.length ++ ·)
  | slice s => s.serialize.map fun bs => (F.digest bs).bytes ++ bs

/-- The message as a replica sees it that gets it from `src`. -/
def toInput (F : Formats PubKey Sig) (name : UInt256 → H) (src : ReplicaID) :
    Message Sig → Except Fault (Input H Sig)
  | propose prop => .ok (.propose src prop.proposer (name prop.sHash) (prop.slice.toCore name)
      (prop.blk.toCore name))
  | vote v => .ok (.vote src
      { voter := v.voter, blkHash := name v.blkHash
        cert := { objHash := name v.objHash, sig := v.sig } })
  | reqBlock hashes => .ok (.reqBlock src (hashes.map name))
  | respBlock blks => .ok (.respBlock src (blks.map (Block.toCore name)) true)
  | slice s => s.serialize.map fun bs => .slice src (name (F.digest bs)) (s.toCore name)

end Message
end Wire

/-- The handler of an opcode parses its message. -/
def Opcode.parse (F : Formats PubKey Sig) (name : UInt256 → H) (src : ReplicaID) :
    Opcode → DataStream (Input H Sig)
  | .propose => Wire.parsePropose F name src
  | .vote => Wire.parseVote F name src
  | .reqBlock => Wire.parseReqBlock name src
  | .respBlock => Wire.parseRespBlock F name src
  | .slice => Wire.parseSlice name src

/-- Bytes arrive from a peer, or the replica goes on. -/
inductive Arrival (H Sig : Type)
  | message (src : ReplicaID) (op : Opcode) (bytes : Bytes)
  | turn (e : Input H Sig)

/-- What is no message of a peer. -/
def Input.isTurn : Input H Sig → Bool
  | .verified _ => true
  | .proceed _ => true
  | .onPropose _ _ _ _ => true
  | .asyncQcFinish _ => true
  | .runTask _ _ => true
  | _ => false

namespace HotStuffBase

variable [DecidableEq H]

/-- A handler parses a message and handles it; an exception drops the message. -/
def receive (P : Primitives H Sig) (F : Formats PubKey Sig) (name : UInt256 → H)
    (b : HotStuffBase H Sig) (src : ReplicaID) (op : Opcode) (bytes : Bytes) :
    Option (HotStuffBase H Sig) :=
  if b.idle && b.peer src then
    match op.parse F name src bytes with
    | .ok (e, _) => b.step P e
    | .error (.throw e) => some (b.throw e)
    | .error _ => some b.halt
  else none

def arrive (P : Primitives H Sig) (F : Formats PubKey Sig) (name : UInt256 → H)
    (b : HotStuffBase H Sig) : Arrival H Sig → Option (HotStuffBase H Sig)
  | .message src op bytes => b.receive P F name src op bytes
  | .turn e => if e.isTurn then b.step P e else none

/-- The states that are reached, whatever bytes the peers send, when each step meets `cond`. -/
def Receives (P : Primitives H Sig) (F : Formats PubKey Sig) (name : UInt256 → H)
    (dummy : QuorumCert H Sig) (replicas : List NetAddr) (listenAddr : NetAddr) (id : ReplicaID)
    (cond : HotStuffBase H Sig → Arrival H Sig → Prop) (b : HotStuffBase H Sig) : Prop :=
  Transition.Reaches (arrive P F name) cond (init P dummy replicas listenAddr id) b

end HotStuffBase
end LibHotStuff
