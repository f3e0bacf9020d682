import LibHotStuff.Model.Messages
import LibHotStuff.Proofs.Concrete
import LibHotStuff.Proofs.WireRoundTrip

/-! Replicas that send each other bytes do what they would do with the messages themselves. -/

namespace LibHotStuff

open Codec DataStream

variable {PubKey H Sig : Type} {F : Formats PubKey Sig}

namespace Wire

/-- The numbers and lengths of a message fit into the bytes that they have. -/
def Message.Sized : Message Sig → Prop
  | .propose prop => prop.Sized
  | .vote v => v.voter < 2 ^ 16
  | .reqBlock hashes => hashes.length < 2 ^ 32
  | .respBlock blks => blks.length < 2 ^ 32 ∧ ∀ b ∈ blks, b.Sized
  | .slice s => s.Sized

theorem parseBlocks_putBlocks (hF : F.Lawful) {blks : List (Block Sig)} (h : ∀ b ∈ blks, b.Sized) :
    ∃ bs, Message.putBlocks F blks = .ok bs ∧
      ∀ rest, parseBlocks F blks.length (bs ++ rest) = (blks, .ok ()) := by
  induction blks with
  | nil => exact ⟨[], rfl, fun _ => rfl⟩
  | cons b blks ih =>
    obtain ⟨bs, hput, _, hreads⟩ := Block.serialize_reads hF (h b List.mem_cons_self)
    obtain ⟨cs, hputs, hparse⟩ := ih fun b' hb' => h b' (List.mem_cons_of_mem b hb')
    refine ⟨bs ++ cs, ?_, fun rest => ?_⟩
    · simp only [Message.putBlocks, hput, hputs, bind, Except.bind, pure, Except.pure]
    · rw [List.append_assoc, List.length_cons, parseBlocks, hreads (cs ++ rest)]
      simp only [hparse rest]

/-- A handler reads the message that a constructor has written. -/
theorem Message.serialize_parse (hF : F.Lawful) (name : UInt256 → H) (src : ReplicaID)
    (m : Message Sig) (h : m.Sized) : ∃ bs e, m.serialize F = .ok bs ∧ m.toInput F name src = .ok e ∧
      ∀ rest, ∃ rest', m.opcode.parse F name src (bs ++ rest) = .ok (e, rest') := by
  cases m with
  | propose prop =>
    obtain ⟨sbs, hslice, hsreads⟩ := Slice.serialize_reads h.slice
    obtain ⟨bbs, hblk, _, hbreads⟩ := Block.serialize_reads hF h.blk
    have hserialize : prop.serialize F =
        .ok (leBytes 2 prop.proposer ++ (prop.sHash.bytes ++ (sbs ++ bbs))) := by
      unfold Proposal.serialize
      simp only [hslice, hblk, bind, Except.bind, pure, Except.pure]
    refine ⟨_, _, hserialize, rfl, fun rest => ⟨rest, ?_⟩⟩
    have hreads : Reads (Proposal.unserialize F fun _ => none)
        (leBytes 2 prop.proposer ++ (prop.sHash.bytes ++ (sbs ++ bbs)))
        (prop, (addBlk (fun _ => none) prop.blk (F.digest bbs)).2) := by
      apply (uint_reads _ h.proposer).bind
      apply (bytes_reads prop.sHash).bind
      apply hsreads.bind
      apply hbreads.last
      exact Reads.pure _
    refine Reads.last hreads ?_ rest
    exact Reads.pure _
  | vote v =>
    refine ⟨_, _, rfl, rfl, fun rest => ⟨rest, ?_⟩⟩
    refine Reads.bind (uint_reads _ h) ?_ rest
    apply (bytes_reads v.blkHash).bind
    apply (bytes_reads v.objHash).bind
    apply (hF.sig v.sig).last
    exact Reads.pure _
  | reqBlock hashes =>
    refine ⟨_, _, rfl, rfl, fun rest => ⟨rest, ?_⟩⟩
    refine Reads.last (Block.putHashes_reads h) ?_ rest
    exact Reads.pure _
  | respBlock blks =>
    obtain ⟨bs, hput, hparse⟩ := parseBlocks_putBlocks hF h.2
    refine ⟨putUInt32 blks.length ++ bs, _, by simp only [serialize, hput, Except.map], rfl,
      fun rest => ⟨bs ++ rest, ?_⟩⟩
    have hn := putUInt32_reads h.1 (bs ++ rest)
    rw [List.append_assoc]
    simp only [Message.opcode, Opcode.parse, parseRespBlock, StateT.bind, Bind.bind, Except.bind, hn]
    have hget : (get : DataStream Bytes) (bs ++ rest) = .ok (bs ++ rest, bs ++ rest) := rfl
    simp only [hget, hparse rest]
    rfl
  | slice s =>
    obtain ⟨bs, hput, hreads⟩ := Slice.serialize_reads h
    refine ⟨(F.digest bs).bytes ++ bs, .slice src (name (F.digest bs)) (s.toCore name),
      by simp only [serialize, hput, Except.map], by simp only [toInput, hput, Except.map],
      fun rest => ⟨rest, ?_⟩⟩
    refine Reads.bind (bytes_reads _) ?_ rest
    apply hreads.last
    exact Reads.pure _

end Wire

/-- The bytes of a message have been written by a constructor of messages. -/
def Arrival.Written (F : Formats PubKey Sig) : Arrival H Sig → Prop
  | .message _ op bytes => ∃ m : Wire.Message Sig, m.Sized ∧ op = m.opcode ∧ m.serialize F = .ok bytes
  | .turn _ => True

namespace HotStuffBase

variable [DecidableEq H] {P : Primitives H Sig} {name : UInt256 → H} {b b' : HotStuffBase H Sig}

/-- The replica may take the input: it is no message, or a peer may have sent it. -/
def MayTake (F : Formats PubKey Sig) (name : UInt256 → H) (b : HotStuffBase H Sig)
    (e : Input H Sig) : Prop :=
  e.isTurn = true ∨ ∃ src, (b.idle && b.peer src) = true ∧
    ∃ m : Wire.Message Sig, m.Sized ∧ m.toInput F name src = .ok e

/-- The bytes of a message are handled as the message is. -/
theorem receive_serialize (hF : F.Lawful) {src : ReplicaID} (hpeer : (b.idle && b.peer src) = true)
    {m : Wire.Message Sig} (hm : m.Sized) : ∃ bs e, m.serialize F = .ok bs ∧
      m.toInput F name src = .ok e ∧ b.receive P F name src m.opcode bs = b.step P e := by
  obtain ⟨bs, e, hserialize, hinput, hparse⟩ := m.serialize_parse hF name src hm
  refine ⟨bs, e, hserialize, hinput, ?_⟩
  obtain ⟨rest, hrest⟩ := hparse []
  rw [List.append_nil] at hrest
  simp only [receive, hpeer, if_true, hrest]

/-- Bytes instead of messages: the states that a replica reaches when peers send it the bytes that
the constructors of their messages write are the states that it reaches when it is given the messages
themselves. -/
theorem reaches_bytes_iff (hF : F.Lawful) :
    Transition.Reaches (arrive P F name) (fun _ a => a.Written F) b b' ↔
      Transition.Reaches (step P) (fun b e => b.MayTake F name e) b b' := by
  constructor
  · intro h
    induction h with
    | refl => exact .refl
    | @tail b₁ b₂ _ hlast ih =>
      obtain ⟨a, hwritten, hstep⟩ := hlast
      refine ih.tail ?_
      cases a with
      | message src op bytes =>
        obtain ⟨m, hm, rfl, hbytes⟩ := hwritten
        have hpeer : (b₁.idle && b₁.peer src) = true := by
          simp only [arrive, receive, Option.ite_none_right_eq_some] at hstep
          exact hstep.1
        obtain ⟨bs, e, hserialize, hinput, hreceive⟩ := receive_serialize hF hpeer hm
        obtain rfl := Except.ok.inj (hserialize.symm.trans hbytes)
        exact ⟨e, Or.inr ⟨src, hpeer, m, hm, hinput⟩, hreceive.symm.trans hstep⟩
      | turn e =>
        simp only [arrive, Option.ite_none_right_eq_some] at hstep
        exact ⟨e, Or.inl hstep.1, hstep.2⟩
  · intro h
    induction h with
    | refl => exact .refl
    | tail _ hlast ih =>
      obtain ⟨e, htake, hstep⟩ := hlast
      refine ih.tail ?_
      obtain hturn | ⟨src, hpeer, m, hm, hinput⟩ := htake
      · exact ⟨.turn e, trivial, by simpa only [arrive, hturn, if_true] using hstep⟩
      · obtain ⟨bs, e', hserialize, hinput', hreceive⟩ := receive_serialize hF hpeer hm
        obtain rfl := Except.ok.inj (hinput'.symm.trans hinput)
        exact ⟨.message src m.opcode bs, ⟨m, hm, rfl, hserialize⟩, hreceive.trans hstep⟩

end HotStuffBase

namespace Concrete

open Wire.Concrete (Sig64 formats formats_lawful hashName signedProposal signedProposal_sized)

/-- A block, with its signatures as numbers. -/
def countSigs (d : BlockData Nat Sig64) : BlockData Nat Signature :=
  { d with qc := { d.qc with sigs := d.qc.sigs.map (Option.map fun sig => (0, encodeBytes sig.val)) } }

theorem countSigs_injective : Function.Injective countSigs := by
  have hsig : Function.Injective fun sig : Sig64 => ((0, encodeBytes sig.val) : Signature) :=
    fun a b h => Subtype.ext (encodeBytes_injective (Prod.mk.inj h).2)
  intro d e h
  cases d with
  | mk p c q x =>
    cases e with
    | mk p' c' q' x' =>
      simp only [countSigs, BlockData.mk.injEq, QuorumCert.mk.injEq] at h
      obtain ⟨rfl, rfl, ⟨hobj, hsigs⟩, rfl⟩ := h
      have heq := (List.map_injective_iff.mpr (Option.map_injective hsig)) hsigs
      cases q
      cases q'
      simp_all

/-- Primitives with signatures of 64 bytes. -/
def bytesPrimitives : Primitives Nat Sig64 where
  genesisHash := 0
  hashBlock d := (primitives [] []).hashBlock (countSigs d)
  hashCommands := (primitives [] []).hashCommands
  hashSlice := (primitives [] []).hashSlice
  sha256Hex := digest
  sign _ _ := formats.emptySig
  verifySig _ _ _ := true
  leopard := xorLeopard
  hashBlock_injective := (primitives [] []).hashBlock_injective.comp countSigs_injective
  hashCommands_injective := (primitives [] []).hashCommands_injective
  verifySig_sign _ _ := rfl
  sha256Hex_length := (primitives [] []).sha256Hex_length

/-- Replica 0 of four. -/
def listening : HotStuffBase Nat Sig64 :=
  .init bytesPrimitives { objHash := 0, sigs := [] } [10, 11, 12, 13] 10 0

/-- Replica 3 sends its proposal; replica 0 gets the bytes, takes the block in and goes on with its
delivery. -/
theorem reaches_bytes_proposal : Transition.Reaches
    (HotStuffBase.arrive bytesPrimitives formats hashName) (fun _ a => a.Written formats) listening
      (listening.proposeHandler bytesPrimitives 3 3 (hashName signedProposal.sHash)
        (signedProposal.slice.toCore hashName) (signedProposal.blk.toCore hashName)) := by
  have hpeer : (listening.idle && listening.peer 3) = true := by decide
  have hdecodable : (signedProposal.slice.toCore hashName).decodable = true := by decide
  refine (HotStuffBase.reaches_bytes_iff formats_lawful).mpr (.single ?_)
  refine ⟨_, Or.inr ⟨3, hpeer, .propose signedProposal, signedProposal_sized, rfl⟩, ?_⟩
  rw [HotStuffBase.step, hpeer, hdecodable]
  rfl

end Concrete
end LibHotStuff
