import LibHotStuff.Model.Network
import LibHotStuff.Proofs.Leopard
import Mathlib

/-! Primitives with which the model can be run: hashes are numbers, taken from a table of the
objects that a run is about, and a signature names its signer and what is signed. -/

namespace LibHotStuff.Concrete

abbrev Signature := ReplicaID × Nat

/-- The place of an object in a table, counted from one; what is not there comes after it. -/
def tableHash {α : Type} [DecidableEq α] (table : List α) (enc : α → Nat) (a : α) : Nat :=
  match table.idxOf? a with
  | some i => i + 1
  | none => table.length + 1 + enc a

theorem idxOf?_some {α : Type} [DecidableEq α] {table : List α} {a : α} {i : Nat}
    (h : table.idxOf? a = some i) : table[i]? = some a := by
  rw [List.idxOf?, List.findIdx?_eq_some_iff_getElem] at h
  obtain ⟨hlt, heq, _⟩ := h
  rw [List.getElem?_eq_getElem hlt, eq_of_beq heq]

theorem tableHash_injective {α : Type} [DecidableEq α] (table : List α) {enc : α → Nat}
    (henc : Function.Injective enc) : Function.Injective (tableHash table enc) := by
  intro a b h
  unfold tableHash at h
  cases ha : table.idxOf? a with
  | none =>
    cases hb : table.idxOf? b with
    | none =>
      simp only [ha, hb] at h
      exact henc (by omega)
    | some j =>
      have hj := (List.getElem?_eq_some_iff.mp (idxOf?_some hb)).1
      simp only [ha, hb] at h
      omega
  | some i =>
    have hi := idxOf?_some ha
    have hlt := (List.getElem?_eq_some_iff.mp hi).1
    cases hb : table.idxOf? b with
    | none =>
      simp only [ha, hb] at h
      omega
    | some j =>
      simp only [ha, hb] at h
      obtain rfl : i = j := by omega
      rw [idxOf?_some hb] at hi
      exact (Option.some.inj hi).symm

def encodeBytes (bs : Bytes) : Nat := Encodable.encode (bs.map UInt8.toNat)

theorem encodeBytes_injective : Function.Injective encodeBytes := by
  intro x y h
  exact List.map_injective_iff.mpr (fun a b hab => UInt8.toNat_inj.mp hab)
    (Encodable.encode_injective h)

def encodeBlock (d : BlockData Nat Signature) : Nat :=
  Encodable.encode (d.parentHashes, d.cmds, (d.qc.objHash, d.qc.sigs), encodeBytes d.extra)

theorem encodeBlock_injective : Function.Injective encodeBlock := by
  intro d e h
  have heq := Encodable.encode_injective h
  simp only [Prod.mk.injEq] at heq
  obtain ⟨hpar, hcmds, ⟨hobj, hsigs⟩, hextra⟩ := heq
  cases d with
  | mk p c q x =>
    cases e with
    | mk p' c' q' x' =>
      cases q
      cases q'
      have hx := encodeBytes_injective hextra
      simp_all

def encodeCommands (cs : List UInt256) : Nat :=
  Encodable.encode (cs.map fun c => encodeBytes c.bytes)

theorem encodeCommands_injective : Function.Injective encodeCommands := by
  intro x y h
  refine List.map_injective_iff.mpr (fun a b hab => ?_) (Encodable.encode_injective h)
  cases a
  cases b
  simpa using encodeBytes_injective hab

/-- A rolling sum of some bytes. -/
def sum (bs : Bytes) : Nat := bs.foldl (fun a b => (a * 31 + b.toNat + 1) % 1000003) 7

/-- The digits of a rolling sum, as a hex text. -/
def digest (bs : Bytes) : Bytes := (List.range 64).map fun i => UInt8.ofNat (48 + sum bs / 2 ^ i % 2)

/-- Primitives for the blocks and the lists of commands of two tables. -/
def primitives (blocks : List (BlockData Nat Signature)) (commands : List (List UInt256)) :
    Primitives Nat Signature where
  genesisHash := 0
  hashBlock := tableHash blocks encodeBlock
  hashCommands := tableHash commands encodeCommands
  hashSlice s := sum (s.mData ++ s.mRootHash ++ s.mBranch.flatten) + s.mIndex.toNat + s.mBlkHash
  sha256Hex := digest
  sign r h := (r, h)
  verifySig r h s := decide (s = (r, h))
  leopard := xorLeopard
  hashBlock_injective := tableHash_injective blocks encodeBlock_injective
  hashCommands_injective := tableHash_injective commands encodeCommands_injective
  verifySig_sign := by simp
  sha256Hex_length := by simp [digest]

/-- The placeholder that a core starts with. -/
def noCert : QuorumCert Nat Signature := { objHash := 0, sigs := [] }

/-- The certificate of some of four replicas. -/
def cert (signers : List ReplicaID) (h : Nat) : QuorumCert Nat Signature :=
  { objHash := h, sigs := (List.range 4).map fun r => if r ∈ signers then some (r, h) else none }

/-- A block without commands. -/
def emptyBlock (parent : Nat) (qc : QuorumCert Nat Signature) (tag : UInt8) :
    BlockData Nat Signature :=
  { parentHashes := [parent], cmds := [], qc := qc, extra := [tag] }

/-- Four replicas, the last of which does as it likes. -/
def fourReplicas : Deployment where
  replicas := [10, 11, 12, 13]
  listenAddr r := 10 + r
  byzantine := {3}
  nonempty := by decide
  idWidth := by decide
  listensOnce := by decide
  byzantineLt := by decide
  byzantineCard := by decide

/-- Four replicas that all follow the code. -/
def fourCorrect : Deployment :=
  { fourReplicas with
    byzantine := ∅
    byzantineLt := fun _ h => absurd h (Finset.notMem_empty _)
    byzantineCard := Nat.zero_le _ }

/-- Replica `r` gets block `h` of a table from `src` and delivers it. -/
def adopt (blocks : List (BlockData Nat Signature)) (src r h : Nat) : List (Event Nat Signature) :=
  (blocks[h - 1]?.toList.map fun data => .fetch r src data) ++ [.deliver r h]

/-- A slice that passes its checks for any block. -/
def anySlice (h : Nat) : Slice Nat :=
  { mData := [], mIndex := 0, mRootHash := digest [], mBranch := [], mBlkHash := h }

/-- The proposal of block `h` by replica 3, with a slice that is for no block of a run. -/
def offered (blocks : List (BlockData Nat Signature)) (h : Nat) : Proposal Nat :=
  { proposer := 3, sHash := (primitives blocks []).hashSlice (anySlice 99), slice := anySlice 99
    blk := h }

/-- Replica `r` gets the proposal of block `h`, and the handler runs to its end. -/
def offer (blocks : List (BlockData Nat Signature)) (r h : Nat) : List (Event Nat Signature) :=
  .receiveProposal r 3 [] (offered blocks h) :: List.replicate 3 (.runTask r [] false)

/-- A block that a replica makes of no commands. -/
def ownBlock (parent : Nat) (qc : QuorumCert Nat Signature) (tag : UInt8) :
    BlockData Nat Signature :=
  { parentHashes := [parent], cmds := [1], qc := qc, extra := [tag] }

/-- The proposals that replica `id` of four makes for a block without commands. -/
def ownProposals (id blk : Nat) : List (Proposal Nat) :=
  match (RSE.setParams 4).encode xorLeopard [] with
  | .ok (_, shards) =>
    match MerkleTree.proofs digest shards with
    | .ok proofs => (Core.new (primitives [] []) id noCert).proposals (primitives [] []) blk proofs
    | .error _ => []
  | .error _ => []

/-- A chain of five blocks, each certified by the next one. -/
def chainBlocks : List (BlockData Nat Signature) :=
  [emptyBlock 0 (cert [] 0) 0, emptyBlock 1 (cert [0, 1, 3] 1) 0, emptyBlock 2 (cert [0, 1, 3] 2) 0,
    emptyBlock 3 (cert [0, 1, 3] 3) 0, emptyBlock 4 (cert [0, 1, 3] 4) 0]

/-- Replicas 0 and 1 vote for blocks of a table, one after the other. -/
def voteAll (blocks : List (BlockData Nat Signature)) (hs : List Nat) :
    List (Event Nat Signature) :=
  hs.flatMap fun h => [0, 1].flatMap fun r => adopt blocks 3 r h ++ offer blocks r h

/-- Replica 2 sees the last block, replicas 0 and 1 do not. -/
def chainRun : List (Event Nat Signature) :=
  voteAll chainBlocks [1, 2, 3, 4] ++ [1, 2, 3, 4, 5].flatMap (adopt chainBlocks 3 2) ++
    offer chainBlocks 2 5

/-- The command of which all 32 bytes are `b`. -/
def command (b : UInt8) : UInt256 := ⟨List.replicate 32 b, List.length_replicate ..⟩

/-- The proposals that replica `id` of four makes for a block with some commands. -/
def commandProposals (id blk : Nat) (cmds : List UInt256) : List (Proposal Nat) :=
  match (RSE.setParams 4).encode xorLeopard (Core.encodeInput cmds) with
  | .ok (_, shards) =>
    match MerkleTree.proofs digest shards with
    | .ok proofs => (Core.new (primitives [] []) id noCert).proposals (primitives [] []) blk proofs
    | .error _ => []
  | .error _ => []

/-- Four blocks with the first list of commands of a table, each certified by the next one. -/
def paidBlocks (signers : List ReplicaID) : List (BlockData Nat Signature) :=
  [ownBlock 0 (cert [] 0) 0, ownBlock 1 (cert signers 1) 0, ownBlock 2 (cert signers 2) 0,
    ownBlock 3 (cert signers 3) 0]

/-- Primitives for these blocks. -/
def paid (signers : List ReplicaID) : Primitives Nat Signature :=
  primitives (paidBlocks signers) [[command 1]]

/-- Replica 0 makes block `h` of some commands, replicas 1 and 2 vote for it, and replica 0 gets
the slices that some of them have sent. -/
def payRound (blocks : List (BlockData Nat Signature)) (slices : List ReplicaID)
    (cmds : List UInt256) (h : Nat) : List (Event Nat Signature) :=
  let props := commandProposals 0 h cmds
  .propose 0 [] cmds [h - 1] [0] :: List.replicate 6 (.runTask 0 [] true) ++
    ([1, 2].flatMap fun r => adopt blocks 0 r h ++
      (props[r]?.toList.map fun prop => .receiveProposal r 0 [] prop) ++
        List.replicate 3 (.runTask r [] false)) ++
    ([1, 2].map fun r => .receiveVote 0 []
      { voter := r, blkHash := h, cert := { objHash := h, sig := (r, h) } }) ++
    .runTask 0 [] false ::
    slices.flatMap fun r =>
      props[r]?.toList.map fun prop => .receiveSlice 0 r prop.sHash prop.slice

/-- Replica 0 makes the four blocks, one after the other. -/
def paidRun (slices : List ReplicaID) : List (Event Nat Signature) :=
  [1, 2, 3, 4].flatMap (payRound (paidBlocks [0, 1, 2]) slices [command 1])

end LibHotStuff.Concrete
