import LibHotStuff.Model.Messages

namespace LibHotStuff

open DataStream Codec

/-- An exception. -/
def Fault.Thrown (f : Fault) : Prop := ∃ e, f = .throw e

variable {PubKey H Sig : Type} {F : Formats PubKey Sig}

/-- The bitmaps and signatures of a malformed message make an exception. -/
structure Formats.Throws (F : Formats PubKey Sig) : Prop where
  bits : Fails Fault.Thrown F.getBits
  sig : Fails Fault.Thrown F.getSig

namespace DataStream

theorem getData_throws (n : Nat) : Fails Fault.Thrown (getData n) := .take ⟨_, rfl⟩ n

theorem getUInt32_throws : Fails Fault.Thrown getUInt32 := .uint ⟨_, rfl⟩ 4

theorem getUInt256_throws : Fails Fault.Thrown getUInt256 :=
  (getData_throws 32).bind fun _ => .pure _

theorem getInt32_throws : Fails Fault.Thrown getInt32 := getUInt32_throws.bind fun _ => .pure _

theorem getArray_throws : Fails Fault.Thrown getArray := by
  apply getUInt32_throws.bind
  intro n
  split
  · exact .pure _
  · exact getData_throws n

end DataStream

namespace Slice

/-- The fields of a serialised slice; the last one has the entries of the branch. -/
def getFields : DataStream (Bytes × Int × UInt256 × Bytes × Bytes) := do
  let data ← getArray
  let index ← getInt32
  let blkHash ← getUInt256
  let rootHash ← getArray
  let branch ← getArray
  return (data, index, blkHash, rootHash, branch)

/-- The bytes of the branch are a multiple of 64, unless they are not there. -/
def evenBranch (bs : Bytes) : Bool :=
  match getFields bs with
  | .ok ((_, _, _, _, branch), _) => decide (branch.length % 64 = 0)
  | .error _ => true

theorem getFields_throws : Fails Fault.Thrown getFields :=
  getArray_throws.bind fun _ => getInt32_throws.bind fun _ => getUInt256_throws.bind fun _ =>
    getArray_throws.bind fun _ => getArray_throws.bind fun _ => .pure _

theorem unserialize_eq : unserialize = getFields >>= fun (data, index, blkHash, rootHash, branch) =>
    if branch.length % 64 = 0 then
      pure {
        mData := data, mIndex := index, mRootHash := rootHash, mBlkHash := blkHash
        mBranch := (List.range (branch.length / 64)).map fun i => (branch.drop (i * 64)).take 64 }
    else throw .assertion := by
  simp only [unserialize, getFields, bind_assoc, pure_bind]

/-- The assertion of `Slice::unserialize`. -/
theorem unserialize_error {bs : Bytes} {f : Fault} (h : unserialize bs = .error f) :
    f.Thrown ∨ evenBranch bs = false := by
  rw [unserialize_eq] at h
  obtain h | ⟨⟨data, index, blkHash, rootHash, branch⟩, rest, hfields, h⟩ := bind_error h
  · exact Or.inl (getFields_throws bs f h)
  · right
    dsimp only at h
    split at h
    · cases h
    · rename_i hodd
      rw [evenBranch, hfields]
      exact decide_eq_false hodd

theorem toInt32_range {n : Nat} (h : n < 2 ^ 32) : -2 ^ 31 ≤ toInt32 n ∧ toInt32 n < 2 ^ 31 := by
  unfold toInt32
  split
  · omega
  · omega

theorem getInt32_range {bs rest : Bytes} {i : Int} (h : getInt32 bs = .ok (i, rest)) :
    -2 ^ 31 ≤ i ∧ i < 2 ^ 31 := by
  obtain ⟨n, mid, hn, h⟩ := bind_ok h
  obtain ⟨bytes, mid', hbytes, hn⟩ := bind_ok hn
  have hlt : n < 2 ^ 32 := by
    have hlen : bytes.length = 4 := take_length hbytes
    have hval : leValue bytes = n := by
      injection hn with hn
      exact (Prod.mk.inj hn).1
    rw [← hval]
    have hbound := leValue_lt bytes
    rw [hlen] at hbound
    omega
  injection h with h
  rw [← (Prod.mk.inj h).1]
  exact toInt32_range hlt

/-- What is parsed is a slice as it comes off the wire. -/
theorem unserialize_decodable {bs rest : Bytes} {s : Slice UInt256}
    (h : unserialize bs = .ok (s, rest)) : s.decodable = true := by
  rw [unserialize_eq] at h
  obtain ⟨⟨data, index, blkHash, rootHash, branch⟩, mid, hfields, h⟩ := bind_ok h
  dsimp only at h
  split at h
  · obtain ⟨_, _, _, hfields⟩ := bind_ok hfields
    obtain ⟨i, _, hi, hfields⟩ := bind_ok hfields
    obtain ⟨_, _, _, hfields⟩ := bind_ok hfields
    obtain ⟨_, _, _, hfields⟩ := bind_ok hfields
    obtain ⟨_, _, _, hfields⟩ := bind_ok hfields
    injection hfields with hfields
    have hindex : i = index := by simpa using congrArg (fun r => r.1.2.1) hfields
    obtain ⟨hlow, hhigh⟩ := getInt32_range hi
    injection h with h
    rw [← (Prod.mk.inj h).1]
    simp only [decodable, Bool.and_eq_true, decide_eq_true_eq, List.all_eq_true, List.mem_map,
      List.mem_range, beq_iff_eq]
    refine ⟨⟨by omega, by omega⟩, ?_⟩
    intro x hx
    obtain ⟨j, hj, rfl⟩ := hx
    rw [List.length_take, List.length_drop]
    omega
  · cases h

end Slice

namespace Wire

theorem getSigs_throws (hF : F.Throws) (is : List Nat) (sigs : Sigs Sig) :
    Fails Fault.Thrown (QuorumCert.getSigs F is sigs) := by
  induction is generalizing sigs with
  | nil => exact .pure _
  | cons i is ih => exact hF.sig.bind fun sig => ih _

theorem QuorumCert.unserialize_throws (hF : F.Throws) :
    Fails Fault.Thrown (QuorumCert.unserialize F) :=
  getUInt256_throws.bind fun _ => hF.bits.bind fun _ => (getSigs_throws hF _ _).bind fun _ => .pure _

theorem QuorumCert.putSigs_error {sigs : Sigs Sig} {is : List Nat} {f : Fault}
    (h : QuorumCert.putSigs F sigs is = .error f) : f.Thrown := by
  induction is with
  | nil => cases h
  | cons i is ih =>
    unfold putSigs at h
    split at h
    · rw [← Except.error.inj h]
      exact ⟨_, rfl⟩
    · cases hrest : putSigs F sigs is with
      | error f' =>
        rw [hrest] at h
        obtain rfl : f' = f := Except.error.inj h
        exact ih hrest
      | ok bs =>
        rw [hrest] at h
        cases h

theorem Block.getHash_error {b : Block Sig} {f : Fault} (h : b.getHash F = .error f) : f.Thrown := by
  unfold getHash serialize QuorumCert.serialize at h
  cases hput : QuorumCert.putSigs F b.qc.sigs (setBits b.qc.rids) with
  | error f' =>
    rw [hput] at h
    rw [← Except.error.inj h]
    exact QuorumCert.putSigs_error hput
  | ok bs =>
    rw [hput] at h
    cases h

theorem Block.getHashes_throws : Fails Fault.Thrown Block.getHashes :=
  getUInt32_throws.bind fun n => getUInt256_throws.times n

theorem Block.unserialize_throws (hF : F.Throws) : Fails Fault.Thrown (Block.unserialize F) :=
  getHashes_throws.bind fun _ => getHashes_throws.bind fun _ =>
    (QuorumCert.unserialize_throws hF).bind fun _ => getArray_throws.bind fun _ =>
      Fails.bind (.lift fun _ => Block.getHash_error) fun _ => .pure _

theorem parseBlocks_error (hF : F.Throws) {n : Nat} {bs : Bytes} {f : Fault}
    (h : (parseBlocks F n bs).2 = .error f) : f.Thrown := by
  induction n generalizing bs with
  | zero => cases h
  | succ n ih =>
    unfold parseBlocks at h
    split at h
    · rename_i f' hb
      rw [← Except.error.inj h]
      exact Block.unserialize_throws hF bs f' hb
    · exact ih h

variable (name : UInt256 → H) (src : ReplicaID)

theorem parseVote_throws (hF : F.Throws) : Fails Fault.Thrown (parseVote F name src) :=
  Fails.bind (.uint ⟨_, rfl⟩ 2) fun _ => getUInt256_throws.bind fun _ =>
    getUInt256_throws.bind fun _ => hF.sig.bind fun _ => .pure _

theorem parseReqBlock_throws :
    Fails Fault.Thrown (parseReqBlock name src : DataStream (Input H Sig)) :=
  Block.getHashes_throws.bind fun _ => .pure _

theorem parseRespBlock_throws (hF : F.Throws) : Fails Fault.Thrown (parseRespBlock F name src) := by
  apply getUInt32_throws.bind
  intro n
  apply Fails.bind
  · intro bs e h
    have h : (Except.ok (bs, bs) : Except Fault _) = .error e := h
    cases h
  intro bs
  have herror (f : Fault) (h : (parseBlocks F n bs).2 = .error f) : f.Thrown := parseBlocks_error hF h
  generalize parseBlocks F n bs = parsed at herror
  obtain ⟨blks, r⟩ := parsed
  cases r with
  | ok _ => exact .pure _
  | error f =>
    obtain ⟨e, rfl⟩ := herror f rfl
    exact .pure _

end Wire

namespace Opcode

/-- The branch of the slice in a message, if it has one, has entries of 64 bytes. -/
def evenBranch : Opcode → Bytes → Bool
  | .propose, bs => Slice.evenBranch (bs.drop 34)
  | .slice, bs => Slice.evenBranch (bs.drop 32)
  | _, _ => true

theorem getUInt256_rest {bs rest : Bytes} {h : UInt256} (hread : getUInt256 bs = .ok (h, rest)) :
    rest = bs.drop 32 := by
  obtain ⟨bytes, mid, hbytes, hread⟩ := bind_ok hread
  injection hread with hread
  rw [← (Prod.mk.inj hread).2]
  exact take_rest hbytes

/-- Parsing a message fails an assertion for no other reason than the branch of a slice. -/
theorem parse_error (hF : F.Throws) {op : Opcode} {name : UInt256 → H} {src : ReplicaID}
    {bs : Bytes} {f : Fault} (h : op.parse F name src bs = .error f)
    (heven : op.evenBranch bs = true) : f.Thrown := by
  cases op with
  | propose =>
    obtain h | ⟨_, _, _, h⟩ := bind_error h
    · obtain h | ⟨_, mid, hp, h⟩ := bind_error h
      · exact Fails.uint ⟨_, rfl⟩ 2 bs f h
      obtain h | ⟨_, mid', hs, h⟩ := bind_error h
      · exact getUInt256_throws mid f h
      obtain h | ⟨_, mid'', _, h⟩ := bind_error h
      · obtain hthrown | hodd := Slice.unserialize_error h
        · exact hthrown
        · obtain ⟨_, _, htake, hp⟩ := bind_ok hp
          injection hp with hp
          have hmid : mid' = bs.drop 34 := by
            rw [getUInt256_rest hs, ← (Prod.mk.inj hp).2, take_rest htake, List.drop_drop]
          rw [hmid] at hodd
          have heven : Slice.evenBranch (bs.drop 34) = true := heven
          rw [hodd] at heven
          cases heven
      obtain h | ⟨_, _, _, h⟩ := bind_error h
      · exact Wire.Block.unserialize_throws hF mid'' f h
      · cases h
    · cases h
  | vote => exact Wire.parseVote_throws name src hF bs f h
  | reqBlock => exact Wire.parseReqBlock_throws name src bs f h
  | respBlock => exact Wire.parseRespBlock_throws name src hF bs f h
  | slice =>
    obtain h | ⟨_, mid, hs, h⟩ := bind_error h
    · exact getUInt256_throws bs f h
    obtain h | ⟨_, _, _, h⟩ := bind_error h
    · obtain hthrown | hodd := Slice.unserialize_error h
      · exact hthrown
      · rw [getUInt256_rest hs] at hodd
        have heven : Slice.evenBranch (bs.drop 32) = true := heven
        rw [hodd] at heven
        cases heven
    · cases h

end Opcode

/-- A message of a peer, with a slice that can come off the wire. -/
def Input.FromPeer (src : ReplicaID) : Input H Sig → Prop
  | .propose s _ _ sl _ => s = src ∧ sl.decodable = true
  | .vote s _ => s = src
  | .reqBlock s _ => s = src
  | .respBlock s _ _ => s = src
  | .slice s _ sl => s = src ∧ sl.decodable = true
  | _ => False

theorem Opcode.parse_fromPeer {op : Opcode} {name : UInt256 → H} {src : ReplicaID} {bs rest : Bytes}
    {e : Input H Sig} (h : op.parse F name src bs = .ok (e, rest)) : e.FromPeer src := by
  have hpure {α : Type} {x y : α} {mid rest : Bytes}
      (h : (pure x : DataStream α) mid = .ok (y, rest)) : y = x := by
    have h : Except.ok (x, mid) = (Except.ok (y, rest) : Except Fault (α × Bytes)) := h
    simp only [Except.ok.injEq, Prod.mk.injEq] at h
    exact h.1.symm
  cases op with
  | propose =>
    obtain ⟨⟨prop, storage⟩, _, hprop, h⟩ := bind_ok h
    obtain rfl := hpure h
    obtain ⟨_, _, _, hprop⟩ := bind_ok hprop
    obtain ⟨_, _, _, hprop⟩ := bind_ok hprop
    obtain ⟨slice, _, hslice, hprop⟩ := bind_ok hprop
    obtain ⟨_, _, _, hprop⟩ := bind_ok hprop
    have hdec := Slice.unserialize_decodable hslice
    have heq : prop.slice = slice := congrArg (fun r => Wire.Proposal.slice r.1) (hpure hprop)
    rw [← heq] at hdec
    exact ⟨rfl, hdec⟩
  | vote =>
    obtain ⟨_, _, _, h⟩ := bind_ok h
    obtain ⟨_, _, _, h⟩ := bind_ok h
    obtain ⟨_, _, _, h⟩ := bind_ok h
    obtain ⟨_, _, _, h⟩ := bind_ok h
    obtain rfl := hpure h
    exact rfl
  | reqBlock =>
    obtain ⟨_, _, _, h⟩ := bind_ok h
    obtain rfl := hpure h
    exact rfl
  | respBlock =>
    obtain ⟨n, _, _, h⟩ := bind_ok h
    obtain ⟨bs, _, _, h⟩ := bind_ok h
    generalize Wire.parseBlocks F n bs = parsed at h
    obtain ⟨blks, r⟩ := parsed
    cases r with
    | ok _ =>
      obtain rfl := hpure h
      exact rfl
    | error f =>
      cases f with
      | throw _ =>
        obtain rfl := hpure h
        exact rfl
      | _ => cases h
  | slice =>
    obtain ⟨_, _, _, h⟩ := bind_ok h
    obtain ⟨slice, _, hslice, h⟩ := bind_ok h
    obtain rfl := hpure h
    exact ⟨rfl, Slice.unserialize_decodable hslice⟩

end LibHotStuff
