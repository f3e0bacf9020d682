import LibHotStuff.Model.Wire
import Mathlib

namespace LibHotStuff

open Codec DataStream

namespace DataStream

theorem putUInt32_reads {n : Nat} (h : n < 2 ^ 32) : Reads getUInt32 (putUInt32 n) n := by
  unfold putUInt32 getUInt32
  rw [Nat.mod_eq_of_lt h]
  apply uint_reads
  omega

theorem bytes_reads (c : UInt256) : Reads getUInt256 c.bytes c := by
  have hread := (take_reads (Fault.throw .ioFailure) c.size).map UInt256.ofBytes
  rwa [UInt256.ofBytes_bytes] at hread

theorem putInt32_reads {i : Int} (hlow : -2 ^ 31 ≤ i) (hhigh : i < 2 ^ 31) :
    Reads getInt32 (putInt32 i) i := by
  have hlt : (i % 2 ^ 32).toNat < 2 ^ 32 := by omega
  have hval : toInt32 (i % 2 ^ 32).toNat = i := by
    unfold toInt32
    split
    · omega
    · omega
  have hread := (putUInt32_reads hlt).map toInt32
  rwa [hval] at hread

theorem putArray_reads {bs : Bytes} (h : bs.length < 2 ^ 32) : Reads getArray (putArray bs) bs := by
  apply (putUInt32_reads h).bind
  split
  · rename_i hnil
    rw [List.length_eq_zero_iff] at hnil
    subst hnil
    exact Reads.pure []
  · exact take_reads _ rfl

end DataStream

/-- The slice has the types and lengths that can be written. -/
structure Slice.Sized (s : Slice UInt256) : Prop where
  data : s.mData.length < 2 ^ 32
  index : -2 ^ 31 ≤ s.mIndex ∧ s.mIndex < 2 ^ 31
  rootHash : s.mRootHash.length < 2 ^ 32
  branch : ∀ b ∈ s.mBranch, b.length = 64
  total : 64 * s.mBranch.length < 2 ^ 32

theorem Slice.serialize_reads {s : Slice UInt256} (h : s.Sized) :
    ∃ bs, s.serialize = .ok bs ∧ Reads Slice.unserialize bs s := by
  have hall : s.mBranch.all (·.length == 64) = true := by
    rw [List.all_eq_true]
    intro b hb
    rw [h.branch b hb]
    rfl
  have hlen : s.mBranch.flatten.length = 64 * s.mBranch.length := by
    rw [List.length_flatten, List.map_congr_left h.branch, List.map_const', List.sum_replicate,
      Nat.nsmul_eq_mul, Nat.mul_comm]
  have hroot : s.mRootHash.take (s.mRootHash.length % 2 ^ 32) = s.mRootHash := by
    rw [Nat.mod_eq_of_lt h.rootHash, List.take_length]
  have hserialize : s.serialize = .ok (putArray s.mData ++ (putInt32 s.mIndex ++
      (s.mBlkHash.bytes ++ (putArray s.mRootHash ++ putArray s.mBranch.flatten)))) := by
    unfold Slice.serialize
    rw [if_pos hall, hroot, Nat.mod_eq_of_lt h.total, if_pos hlen.symm]
    unfold putArray
    rw [hlen]
  refine ⟨_, hserialize, ?_⟩
  have hbranch : s.mBranch.flatten.length < 2 ^ 32 := hlen ▸ h.total
  apply (putArray_reads h.data).bind
  apply (putInt32_reads h.index.1 h.index.2).bind
  apply (bytes_reads s.mBlkHash).bind
  apply (putArray_reads h.rootHash).bind
  apply (putArray_reads hbranch).last
  have hdiv : s.mBranch.flatten.length / 64 = s.mBranch.length := by omega
  rw [if_pos (by omega), hdiv, chunks_flatten h.branch]
  exact Reads.pure s

namespace Wire

variable {PubKey Sig : Type} {F : Formats PubKey Sig}

/-- There is a signature for each set bit, and for nothing else. -/
structure QuorumCert.Sized (qc : QuorumCert Sig) : Prop where
  rids : qc.rids.length < 2 ^ 32
  sigs : ∀ rid, rid ∈ qc.sigs ↔ ∃ i ∈ setBits qc.rids, key i = rid

namespace QuorumCert

/-- The entries for the bits that are read are written, the others are kept. -/
theorem putSigs_reads (hF : F.Lawful) {sigs : Sigs Sig} {is : List Nat}
    (h : ∀ i ∈ is, key i ∈ sigs) (old : Sigs Sig) :
    ∃ bs new, putSigs F sigs is = .ok bs ∧ Reads (getSigs F is old) bs new ∧
      ∀ rid, new.lookup rid =
        if ∃ i ∈ is, key i = rid then sigs.lookup rid else old.lookup rid := by
  induction is generalizing old with
  | nil => exact ⟨[], old, rfl, Reads.pure old, fun rid => by simp⟩
  | cons i is ih =>
    obtain ⟨sig, hsig⟩ := Option.isSome_iff_exists.mp
      (Finmap.lookup_isSome.mpr (h i List.mem_cons_self))
    obtain ⟨bs, new, hput, hget, hlookup⟩ :=
      ih (fun j hj => h j (List.mem_cons_of_mem i hj)) (old.insert (key i) sig)
    refine ⟨F.putSig sig ++ bs, new, ?_, (hF.sig sig).bind hget, ?_⟩
    · rw [putSigs, hsig]
      simp only [hput, Except.map]
    · intro rid
      rw [hlookup rid]
      by_cases hlater : ∃ j ∈ is, key j = rid
      · rw [if_pos hlater, if_pos]
        obtain ⟨j, hj, hkey⟩ := hlater
        exact ⟨j, List.mem_cons_of_mem i hj, hkey⟩
      · rw [if_neg hlater]
        by_cases hkey : key i = rid
        · subst hkey
          rw [if_pos ⟨i, List.mem_cons_self, rfl⟩, Finmap.lookup_insert, hsig]
        · rw [if_neg, Finmap.lookup_insert_of_ne _ (Ne.symm hkey)]
          intro hex
          obtain ⟨j, hj, hjkey⟩ := hex
          obtain rfl | hj := List.mem_cons.mp hj
          · exact hkey hjkey
          · exact hlater ⟨j, hj, hjkey⟩

theorem serialize_reads (hF : F.Lawful) {qc : QuorumCert Sig} (h : qc.Sized) :
    ∃ bs, qc.serialize F = .ok bs ∧ Reads (unserialize F) bs qc := by
  have hkeys : ∀ i ∈ setBits qc.rids, key i ∈ qc.sigs := fun i hi =>
    (h.sigs (key i)).mpr ⟨i, hi, rfl⟩
  obtain ⟨bs, new, hput, hget, hlookup⟩ := putSigs_reads hF hkeys ∅
  have hnew : new = qc.sigs := by
    apply Finmap.ext_lookup
    intro rid
    rw [hlookup rid]
    split
    · rfl
    · rename_i hno
      rw [← h.sigs rid] at hno
      rw [Finmap.lookup_empty, Finmap.lookup_eq_none.mpr hno]
  subst hnew
  refine ⟨qc.objHash.bytes ++ (F.putBits qc.rids ++ bs), ?_, ?_⟩
  · unfold serialize
    simp only [hput, Except.map]
  · apply (bytes_reads qc.objHash).bind
    apply (hF.bits qc.rids h.rids).bind
    apply hget.last
    exact Reads.pure qc

end QuorumCert

structure Block.Sized (b : Block Sig) : Prop where
  parentHashes : b.parentHashes.length < 2 ^ 32
  cmds : b.cmds.length < 2 ^ 32
  qc : b.qc.Sized
  extra : b.extra.length < 2 ^ 32

namespace Block

theorem putHashes_reads {hs : List UInt256} (h : hs.length < 2 ^ 32) :
    Reads getHashes (putHashes hs) hs :=
  (putUInt32_reads h).bind (times_reads fun c _ => bytes_reads c)

theorem serialize_reads (hF : F.Lawful) {b : Block Sig} (h : b.Sized) :
    ∃ bs, b.serialize F = .ok bs ∧ b.getHash F = .ok (F.digest bs) ∧
      Reads (unserialize F) bs (b, F.digest bs) := by
  obtain ⟨bs, hqc, hreads⟩ := QuorumCert.serialize_reads hF h.qc
  have hserialize : b.serialize F = .ok (putHashes b.parentHashes ++ (putHashes b.cmds ++
      (bs ++ putArray b.extra))) := by
    unfold serialize
    simp only [hqc, Except.map]
  have hhash : b.getHash F = .ok (F.digest (putHashes b.parentHashes ++ (putHashes b.cmds ++
      (bs ++ putArray b.extra)))) := by
    unfold getHash
    simp only [hserialize, Except.map]
  refine ⟨_, hserialize, hhash, ?_⟩
  apply (putHashes_reads h.parentHashes).bind
  apply (putHashes_reads h.cmds).bind
  apply hreads.bind
  apply (putArray_reads h.extra).last
  apply (Reads.lift hhash).last
  exact Reads.pure _

/-- Blocks that are written as the same bytes are the same. -/
theorem serialize_injective (hF : F.Lawful) {b b' : Block Sig} {bs : Bytes} (h : b.Sized)
    (h' : b'.Sized) (hb : b.serialize F = .ok bs) (hb' : b'.serialize F = .ok bs) : b = b' := by
  obtain ⟨cs, hcs, _, hreads⟩ := serialize_reads hF h
  obtain ⟨cs', hcs', _, hreads'⟩ := serialize_reads hF h'
  obtain rfl : cs = bs := Except.ok.inj (hcs.symm.trans hb)
  obtain rfl : cs' = cs := Except.ok.inj (hcs'.symm.trans hb')
  have heq := (hreads []).symm.trans (hreads' [])
  injection heq with heq
  injection heq with heq
  injection heq

end Block

structure Proposal.Sized (p : Proposal Sig) : Prop where
  proposer : p.proposer < 2 ^ 16
  slice : p.slice.Sized
  blk : p.blk.Sized

/-- What `serialize` writes is read back whatever follows it. A block that is stored under the same
digest has been hashed from the same bytes. -/
theorem Proposal.serialize_unserialize (hF : F.Lawful) (p : Proposal Sig) (hp : p.Sized)
    (storage : Storage Sig)
    (hdigest : ∀ bs b, p.blk.serialize F = .ok bs → storage (F.digest bs) = some b →
      b.Sized ∧ b.serialize F = .ok bs)
    (rest : Bytes) :
    ∃ bs hash storage', p.serialize F = .ok bs ∧ p.blk.getHash F = .ok hash ∧
      unserialize F storage (bs ++ rest) = .ok ((p, storage'), rest) ∧
      storage' hash = some p.blk := by
  obtain ⟨sbs, hslice, hsreads⟩ := Slice.serialize_reads hp.slice
  obtain ⟨bbs, hblk, hhash, hbreads⟩ := Block.serialize_reads hF hp.blk
  have hstorage : ∀ b, storage (F.digest bbs) = some b → b = p.blk := by
    intro b hb
    obtain ⟨hsized, hsame⟩ := hdigest bbs b hblk hb
    exact Block.serialize_injective hF hsized hp.blk hsame hblk
  have hserialize : p.serialize F =
      .ok (leBytes 2 p.proposer ++ (p.sHash.bytes ++ (sbs ++ bbs))) := by
    unfold serialize
    simp only [hslice, hblk, bind, Except.bind, pure, Except.pure]
  have hadd : addBlk storage p.blk (F.digest bbs) = (p.blk,
      (addBlk storage p.blk (F.digest bbs)).2) := by
    unfold addBlk
    split
    · rename_i b hb
      rw [hstorage b hb]
    · rfl
  have hstored : (addBlk storage p.blk (F.digest bbs)).2 (F.digest bbs) = some p.blk := by
    unfold addBlk
    split
    · rename_i b hb
      rw [← hstorage b hb]
      exact hb
    · exact Function.update_self _ _ _
  refine ⟨_, F.digest bbs, (addBlk storage p.blk (F.digest bbs)).2, hserialize, hhash, ?_, hstored⟩
  refine Reads.bind (uint_reads _ hp.proposer) ?_ rest
  apply (bytes_reads p.sHash).bind
  apply hsreads.bind
  apply hbreads.last
  dsimp only
  rw [hadd]
  exact Reads.pure _

namespace Concrete

/-- The number with the given bits, the lowest one first. -/
def bitsValue : List Bool → Nat
  | [] => 0
  | b :: bs => b.toNat + 2 * bitsValue bs

theorem bitsValue_lt (bits : List Bool) : bitsValue bits < 2 ^ bits.length := by
  induction bits with
  | nil => exact Nat.one_pos
  | cons b bs ih =>
    have hb : b.toNat ≤ 1 := Bool.toNat_le b
    rw [bitsValue, List.length_cons, pow_succ]
    omega

theorem testBit_bitsValue (bits : List Bool) :
    (List.range bits.length).map (bitsValue bits).testBit = bits := by
  induction bits with
  | nil => rfl
  | cons b bs ih =>
    rw [List.length_cons, List.range_succ_eq_map, List.map_cons, List.map_map]
    congr 1
    · cases b
      · simp [bitsValue, Nat.testBit_zero]
      · simp [bitsValue, Nat.testBit_zero]
    · refine Eq.trans (List.map_congr_left fun i _ => ?_) ih
      have hdiv : (b.toNat + 2 * bitsValue bs) / 2 = bitsValue bs := by
        have hb : b.toNat ≤ 1 := Bool.toNat_le b
        omega
      simp only [Function.comp_apply, bitsValue, Nat.testBit_succ, hdiv]

/-- The bytes of the words that hold `n` bits. -/
def bitsSize (n : Nat) : Nat := 8 * ((n + 63) / 64)

abbrev Sig64 := { bs : Bytes // bs.length = 64 }

/-- Bitmaps in words of 64 bits; a signature is the key and the digest that it signs. -/
def formats : Formats UInt256 Sig64 where
  putBits := fun bits => putUInt32 bits.length ++ leBytes (bitsSize bits.length) (bitsValue bits)
  getBits := do
    let n ← getUInt32
    let bs ← getData (bitsSize n)
    return (List.range n).map (leValue bs).testBit
  putSig := fun sig => sig.val
  getSig := do
    let bs ← getData 64
    if h : bs.length = 64 then return ⟨bs, h⟩ else throw (.throw .illFormedSignature)
  emptySig := ⟨List.replicate 64 0, rfl⟩
  verifySig := fun pubkey hash sig => sig.val == pubkey.bytes ++ hash.bytes
  digest := UInt256.ofBytes

theorem formats_lawful : formats.Lawful where
  bits := by
    intro bits h
    have hlt : bitsValue bits < 256 ^ bitsSize bits.length := by
      apply (bitsValue_lt bits).trans_le
      rw [show (256 : Nat) = 2 ^ 8 from rfl, ← pow_mul]
      apply Nat.pow_le_pow_right Nat.two_pos
      unfold bitsSize
      omega
    apply (putUInt32_reads h).bind
    apply (take_reads _ (leBytes_length _ _)).last
    rw [leValue_leBytes hlt, testBit_bitsValue]
    exact Reads.pure bits
  sig := by
    intro sig
    apply (take_reads _ sig.property).last
    rw [dif_pos sig.property]
    exact Reads.pure sig

theorem bytes32_length (b : UInt8) : (List.replicate 32 b).length = 32 := List.length_replicate

def bytes32 (b : UInt8) : UInt256 := ⟨List.replicate 32 b, bytes32_length b⟩

/-- The number of a hash. -/
def hashName (h : UInt256) : Nat := leValue h.bytes

/-- A block with a certificate of replica 1. -/
def signedBlock : Block Sig64 where
  parentHashes := [bytes32 1]
  cmds := [bytes32 2]
  qc :=
    { objHash := bytes32 1, rids := [false, true, false]
      sigs := Finmap.singleton 1 ⟨List.replicate 64 5, rfl⟩ }
  extra := [9]

def signedProposal : Proposal Sig64 where
  proposer := 3
  sHash := bytes32 4
  slice :=
    { mData := [7, 8], mIndex := 2, mRootHash := List.replicate 64 48
      mBranch := [List.replicate 64 49, List.replicate 64 50], mBlkHash := bytes32 6 }
  blk := signedBlock

theorem signedProposal_sized : signedProposal.Sized where
  proposer := by decide
  slice := ⟨by decide, by decide, by decide, by decide, by decide⟩
  blk :=
    { parentHashes := by decide
      cmds := by decide
      qc := by
        refine ⟨by decide, fun rid => ?_⟩
        have hset : setBits signedBlock.qc.rids = [1] := by decide
        change rid ∈ signedProposal.blk.qc.sigs ↔ ∃ i ∈ setBits signedBlock.qc.rids, key i = rid
        rw [hset, signedProposal, signedBlock, Finmap.mem_singleton]
        simp [key, eq_comm]
      extra := by decide }

theorem serialize_unserialize_signed : ∃ bs hash storage',
    signedProposal.serialize formats = .ok bs ∧ signedBlock.getHash formats = .ok hash ∧
      Proposal.unserialize formats (fun _ => none) (bs ++ [1, 2, 3]) =
        .ok ((signedProposal, storage'), [1, 2, 3]) ∧
      storage' hash = some signedBlock :=
  Proposal.serialize_unserialize formats_lawful signedProposal signedProposal_sized (fun _ => none)
    (fun _ _ _ h => nomatch h) [1, 2, 3]

end Concrete
end Wire
end LibHotStuff
