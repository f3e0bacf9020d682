import LibHotStuff.Library.Codec
import LibHotStuff.Model.Entity
import Mathlib

namespace LibHotStuff

/-- What ends a `DataStream` operation is an exception or a failed assertion. -/
abbrev DataStream := Codec.Reader Fault

namespace DataStream

/-- `get_data_inplace`. -/
def getData (n : Nat) : DataStream Bytes := Codec.take (.throw .ioFailure) n

/-- `s >> n` and `letoh` for a `uint32_t`. -/
def getUInt32 : DataStream Nat := Codec.uint (.throw .ioFailure) 4

/-- `s << htole(n)`: the conversion to `uint32_t` keeps the low bits. -/
def putUInt32 (n : Nat) : Bytes := Codec.leBytes 4 (n % 2 ^ 32)

def getUInt256 : DataStream UInt256 := do
  let bs ← getData 32
  return UInt256.ofBytes bs

/-- The value of an `int` from the bits of a `uint32_t`. -/
def toInt32 (n : Nat) : Int := if n < 2 ^ 31 then n else n - 2 ^ 32

def getInt32 : DataStream Int := do
  let n ← getUInt32
  return toInt32 n

def putInt32 (i : Int) : Bytes := putUInt32 (i % 2 ^ 32).toNat

/-- A length and as many bytes. -/
def getArray : DataStream Bytes := do
  let n ← getUInt32
  if n = 0 then return [] else getData n

def putArray (bs : Bytes) : Bytes := putUInt32 bs.length ++ bs

end DataStream

open DataStream

/-- `Slice::serialize`; `hash_size` and `total_size` are of type `uint32_t`. -/
def Slice.serialize (s : Slice UInt256) : Except Fault Bytes :=
  if s.mBranch.all (·.length == 64) then
    let hash := s.mRootHash.take (s.mRootHash.length % 2 ^ 32)
    let totalSize := 64 * s.mBranch.length % 2 ^ 32
    if totalSize = s.mBranch.flatten.length then
      .ok (putArray s.mData ++ (putInt32 s.mIndex ++ (s.mBlkHash.bytes ++
        (putArray hash ++ (putUInt32 totalSize ++ s.mBranch.flatten)))))
    else .error .assertion
  else .error .assertion

/-- `Slice::unserialize`. -/
def Slice.unserialize : DataStream (Slice UInt256) := do
  let data ← getArray
  let index ← getInt32
  let blkHash ← getUInt256
  let rootHash ← getArray
  let branch ← getArray
  if branch.length % 64 = 0 then
    return {
      mData := data, mIndex := index, mRootHash := rootHash, mBlkHash := blkHash
      mBranch := (List.range (branch.length / 64)).map fun i => (branch.drop (i * 64)).take 64 }
  else throw .assertion

/-- What the message formats take from salticidae and secp256k1. -/
structure Formats (PubKey Sig : Type) where
  putBits : List Bool → Bytes
  getBits : DataStream (List Bool)
  putSig : Sig → Bytes
  getSig : DataStream Sig
  /-- a `SigSecp256k1` that has only been constructed -/
  emptySig : Sig
  verifySig : PubKey → UInt256 → Sig → Bool
  /-- the digest in `salticidae::get_hash` -/
  digest : Bytes → UInt256

/-- The formats of bitmaps and compact signatures can be read back. -/
structure Formats.Lawful {PubKey Sig : Type} (F : Formats PubKey Sig) : Prop where
  bits : ∀ bits, bits.length < 2 ^ 32 → Codec.Reads F.getBits (F.putBits bits) bits
  sig : ∀ sig, Codec.Reads F.getSig (F.putSig sig) sig

namespace Wire

/-- The part of `ReplicaConfig` that `verify` reads. -/
structure ReplicaConfig (PubKey : Type) where
  replicaMap : ReplicaID → Option PubKey
  nmajority : Nat

abbrev Sigs (Sig : Type) := Finmap fun _ : ReplicaID => Sig

/-- `QuorumCertSecp256k1`. -/
structure QuorumCert (Sig : Type) where
  objHash : UInt256
  rids : List Bool
  sigs : Sigs Sig
  deriving DecidableEq

/-- The `i` with `rids.get(i)`, in order. -/
def setBits (rids : List Bool) : List Nat :=
  (List.range rids.length).filter fun i => rids.getD i false

/-- The key under which `sigs` is accessed with a `size_t`. -/
def key (i : Nat) : ReplicaID := i % 2 ^ 16

namespace QuorumCert

variable {PubKey Sig : Type}

def putSigs (F : Formats PubKey Sig) (sigs : Sigs Sig) : List Nat → Except Fault Bytes
  | [] => .ok []
  | i :: is =>
    match sigs.lookup (key i) with
    | none => .error (.throw .outOfRange)
    | some sig => (putSigs F sigs is).map (F.putSig sig ++ ·)

/-- `QuorumCertSecp256k1::serialize`. -/
def serialize (F : Formats PubKey Sig) (qc : QuorumCert Sig) : Except Fault Bytes :=
  (putSigs F qc.sigs (setBits qc.rids)).map fun bs => qc.objHash.bytes ++ (F.putBits qc.rids ++ bs)

def getSigs (F : Formats PubKey Sig) : List Nat → Sigs Sig → DataStream (Sigs Sig)
  | [], sigs => pure sigs
  | i :: is, sigs => do
    let sig ← F.getSig
    getSigs F is (sigs.insert (key i) sig)

/-- `QuorumCertSecp256k1::unserialize` into a fresh object. -/
def unserialize (F : Formats PubKey Sig) : DataStream (QuorumCert Sig) := do
  let objHash ← getUInt256
  let rids ← F.getBits
  let sigs ← getSigs F (setBits rids) ∅
  return { objHash := objHash, rids := rids, sigs := sigs }

/-- The loop of `verify`: `sigs[i]` inserts a missing entry, `get_pubkey` throws. -/
def checkSigs (F : Formats PubKey Sig) (config : ReplicaConfig PubKey) (objHash : UInt256) :
    List Nat → Sigs Sig → Except Fault Bool × Sigs Sig
  | [], sigs => (.ok true, sigs)
  | i :: is, sigs =>
    let (sig, sigs) :=
      match sigs.lookup (key i) with
      | some sig => (sig, sigs)
      | none => (F.emptySig, sigs.insert (key i) F.emptySig)
    match config.replicaMap (key i) with
    | none => (.error (.throw .ridNotFound), sigs)
    | some pubkey =>
      if F.verifySig pubkey objHash sig then checkSigs F config objHash is sigs
      else (.ok false, sigs)

/-- `QuorumCertSecp256k1::verify`: the result, and `sigs` after it. -/
def verify (F : Formats PubKey Sig) (config : ReplicaConfig PubKey) (qc : QuorumCert Sig) :
    Except Fault Bool × Sigs Sig :=
  if qc.sigs.keys.card < config.nmajority then (.ok false, qc.sigs)
  else checkSigs F config qc.objHash (setBits qc.rids) qc.sigs

/-- The certificate as the core sees it: the signature that is found for each set bit. The core
names blocks in its own way. -/
def toCore {H : Type} (name : UInt256 → H) (qc : QuorumCert Sig) : LibHotStuff.QuorumCert H Sig where
  objHash := name qc.objHash
  sigs := (List.range qc.rids.length).map fun i =>
    if qc.rids.getD i false then qc.sigs.lookup (key i) else none

end QuorumCert

/-- The serialised fields of a `Block`. -/
structure Block (Sig : Type) where
  parentHashes : List UInt256
  cmds : List UInt256
  qc : QuorumCert Sig
  extra : Bytes
  deriving DecidableEq

namespace Block

variable {PubKey Sig : Type}

def putHashes (hs : List UInt256) : Bytes := putUInt32 hs.length ++ hs.flatMap (·.bytes)

def getHashes : DataStream (List UInt256) := do
  let n ← getUInt32
  Codec.times getUInt256 n

/-- `Block::serialize`. -/
def serialize (F : Formats PubKey Sig) (b : Block Sig) : Except Fault Bytes :=
  (b.qc.serialize F).map fun qc =>
    putHashes b.parentHashes ++ (putHashes b.cmds ++ (qc ++ putArray b.extra))

/-- `salticidae::get_hash` of a block. -/
def getHash (F : Formats PubKey Sig) (b : Block Sig) : Except Fault UInt256 :=
  (b.serialize F).map F.digest

/-- `Block::unserialize`: the block and its hash. -/
def unserialize (F : Formats PubKey Sig) : DataStream (Block Sig × UInt256) := do
  let parentHashes ← getHashes
  let cmds ← getHashes
  let qc ← QuorumCert.unserialize F
  let extra ← getArray
  let b : Block Sig := { parentHashes := parentHashes, cmds := cmds, qc := qc, extra := extra }
  let hash ← liftM (b.getHash F)
  return (b, hash)

end Block

/-- The blocks of `EntityStorage` under their hashes. -/
abbrev Storage (Sig : Type) := UInt256 → Option (Block Sig)

/-- `EntityStorage::add_blk`: the stored block, and the storage. -/
def addBlk {Sig : Type} (storage : Storage Sig) (b : Block Sig) (hash : UInt256) :
    Block Sig × Storage Sig :=
  match storage hash with
  | some b' => (b', storage)
  | none => (b, Function.update storage hash (some b))

/-- `Proposal`. -/
structure Proposal (Sig : Type) where
  proposer : ReplicaID
  sHash : UInt256
  slice : Slice UInt256
  blk : Block Sig

namespace Proposal

variable {PubKey Sig : Type}

/-- `Proposal::serialize`; a `ReplicaID` has two bytes. -/
def serialize (F : Formats PubKey Sig) (p : Proposal Sig) : Except Fault Bytes := do
  let slice ← p.slice.serialize
  let blk ← p.blk.serialize F
  return Codec.leBytes 2 p.proposer ++ (p.sHash.bytes ++ (slice ++ blk))

/-- `Proposal::unserialize`: the proposal, and the storage with its block. -/
def unserialize (F : Formats PubKey Sig) (storage : Storage Sig) :
    DataStream (Proposal Sig × Storage Sig) := do
  let proposer ← Codec.uint (.throw .ioFailure) 2
  let sHash ← getUInt256
  let slice ← Slice.unserialize
  let (b, hash) ← Block.unserialize F
  let (blk, storage) := addBlk storage b hash
  return ({ proposer := proposer, sHash := sHash, slice := slice, blk := blk }, storage)

end Proposal
end Wire
end LibHotStuff
