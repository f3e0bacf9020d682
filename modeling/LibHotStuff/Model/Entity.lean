import LibHotStuff.Model.Rse
import LibHotStuff.Model.MerkleTree
import Mathlib

namespace LibHotStuff

/-- `PartCertSecp256k1`. -/
structure PartCert (H Sig : Type) where
  objHash : H
  sig : Sig
  deriving DecidableEq

/-- `QuorumCertSecp256k1`: entry `i` of `sigs` is the signature of the set bit `i` of `rids`. -/
structure QuorumCert (H Sig : Type) where
  objHash : H
  sigs : List (Option Sig)
  deriving DecidableEq

/-- The serialised fields of a `Block`: its hash is taken over them. -/
structure BlockData (H Sig : Type) where
  parentHashes : List H
  cmds : List H
  qc : QuorumCert H Sig
  extra : Bytes
  deriving DecidableEq

/-- `Block`, with the fields that delivery, votes and commits fill in. A `block_t` is the hash
under which `EntityStorage` keeps the only object of that hash. -/
structure Block (H Sig : Type) extends BlockData H Sig where
  parents : List H
  qcRef : Option H
  selfQc : Option (QuorumCert H Sig)
  height : Nat
  delivered : Bool
  decision : Bool
  voted : List ReplicaID

/-- `Block::unserialize`: the derived fields are empty. -/
def BlockData.fetched {H Sig : Type} (d : BlockData H Sig) : Block H Sig :=
  { d with
    parents := [], qcRef := none, selfQc := none, height := 0, delivered := false,
    decision := false, voted := [] }

/-- `ReplicaConfig`; `start` registers the ids below `nreplicas`. -/
structure ReplicaConfig where
  nreplicas : Nat
  nmajority : Nat
  deriving DecidableEq, Repr

/-- `Slice`: a Merkle proof and the hash of the block it is for. -/
structure Slice (H : Type) extends MerkleProof where
  mBlkHash : H
  deriving DecidableEq

/-- What `Slice::unserialize` can return: a 32-bit index and a branch of 64-byte entries. -/
def Slice.decodable {H : Type} (s : Slice H) : Bool :=
  decide (-2 ^ 31 ≤ s.mIndex) && decide (s.mIndex < 2 ^ 31) && s.mBranch.all (·.length == 64)

/-- What the code takes from salticidae, secp256k1, PicoSHA2 and leopard. The fields that are
proofs are what it relies on: no two serialised objects share a hash, a replica's own signature
verifies, and a hex digest has 64 characters. -/
structure Primitives (H Sig : Type) where
  genesisHash : H
  /-- `salticidae::get_hash` of a block -/
  hashBlock : BlockData H Sig → H
  /-- `salticidae::get_hash` of `Commands` -/
  hashCommands : List UInt256 → H
  /-- `salticidae::get_hash` of a slice -/
  hashSlice : Slice H → H
  /-- `picosha2::hash256_hex_string` -/
  sha256Hex : Bytes → Bytes
  sign : ReplicaID → H → Sig
  /-- verification under the public key registered for the id -/
  verifySig : ReplicaID → H → Sig → Bool
  leopard : Leopard
  hashBlock_injective : Function.Injective hashBlock
  hashCommands_injective : Function.Injective hashCommands
  verifySig_sign : ∀ rid h, verifySig rid h (sign rid h) = true
  sha256Hex_length : ∀ x, (sha256Hex x).length = 64

namespace QuorumCert

variable {H Sig : Type} [DecidableEq H]

/-- The set bits with their signatures; `sigs` is indexed by a 16-bit id. -/
def signers (qc : QuorumCert H Sig) : List (ReplicaID × Sig) :=
  qc.sigs.zipIdx.filterMap fun (o, i) => o.map fun s => (i % 2 ^ 16, s)

/-- The checking loop of `verify`; `none` is the exception of `get_pubkey`. -/
def checkSigs (P : Primitives H Sig) (config : ReplicaConfig) (h : H) :
    List (ReplicaID × Sig) → Option Bool
  | [] => some true
  | (rid, s) :: rest =>
    if config.nreplicas ≤ rid then none
    else if P.verifySig rid h s then checkSigs P config h rest
    else some false

/-- `QuorumCertSecp256k1::verify`. -/
def verify (P : Primitives H Sig) (config : ReplicaConfig) (qc : QuorumCert H Sig) :
    Option Bool :=
  if (qc.signers.map Prod.fst).dedup.length < config.nmajority then some false
  else checkSigs P config qc.objHash qc.signers

/-- `create_quorum_cert`. -/
def create (config : ReplicaConfig) (h : H) : QuorumCert H Sig :=
  { objHash := h, sigs := List.replicate config.nreplicas none }

/-- `QuorumCertSecp256k1::add_part`: a signature that is there is kept. -/
def addPart (qc : QuorumCert H Sig) (rid : ReplicaID) (pc : PartCert H Sig) :
    Except Error (QuorumCert H Sig) :=
  if pc.objHash ≠ qc.objHash then .error .partCertMismatch
  else
    match qc.sigs[rid]? with
    | some (some _) => .ok qc
    | _ => .ok { qc with sigs := qc.sigs.set rid (some pc.sig) }

end QuorumCert
end LibHotStuff
