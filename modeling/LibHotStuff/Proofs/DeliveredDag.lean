import LibHotStuff.Proofs.Concrete
import LibHotStuff.Proofs.Delivery

namespace LibHotStuff

open Chain

variable {H Sig : Type} [DecidableEq H] {P : Primitives H Sig}

namespace Core

variable {c : Core H Sig} {own own' : H → Prop}

omit [DecidableEq H] in
theorem Grounded.mono (h : c.Grounded P own) (hown : ∀ x, own x → own' x) : c.Grounded P own' :=
  { h with certified := fun hb hgen hd => (h.certified hb hgen hd).imp_left (hown _) }

omit [DecidableEq H] in
/-- Along delivered blocks, `parents[0]` is the first of the parent hashes. -/
theorem Dag.up_parent0 (hc : c.Dag P) {x : H} (hd : c.delivered x = true) (k : Nat) :
    up c.parent0 k x = up P.parent k x := by
  induction k generalizing x with
  | zero => rfl
  | succ k ih =>
    rw [up_succ, up_succ, hc.parent0_eq hd]
    apply Option.bind_congr
    intro p hp
    exact ih (hc.delivered_parent hd hp)

theorem start_grounded (P : Primitives H Sig) (id : ReplicaID) (dummy : QuorumCert H Sig)
    (replicas : List NetAddr) (listenAddr : NetAddr) (own : H → Prop) :
    ((Core.new P id dummy).start replicas listenAddr).Grounded P own := by
  have h := start_started P id dummy replicas listenAddr
  have hnone {x : H} {b : Block H Sig}
      (hb : ((Core.new P id dummy).start replicas listenAddr).storage x = some b)
      (hx : x ≠ P.genesisHash) : False := by
    rw [h.others x hx] at hb
    cases hb
  exact ⟨h.wellFormed, fun hb hx => (hnone hb hx).elim, fun hb hx => (hnone hb hx).elim,
    fun hb hx => (hnone hb hx).elim⟩

end Core

namespace HotStuffBase

variable {b b' : HotStuffBase H Sig}

/-- A step of the replica that builds at most what the handler builds. -/
def ReplicaStep (P : Primitives H Sig) (built : Option H) (nd nd' : Replica H Sig) : Prop :=
  ∃ e, (∀ x ∈ nd.builds P e, x ∈ built) ∧ nd.handle P e = some nd'

theorem Turn.replicaStep {built : Option H} {nd nd' : Replica H Sig} (h : Turn P nd nd') :
    ReplicaStep P built nd nd' := by
  obtain ⟨e, hbuilds, he⟩ := h
  refine ⟨e, fun x hx => ?_, he⟩
  rw [hbuilds] at hx
  cases hx

namespace Pending

theorem ofReplica (h : b.Pending P) {e : Event H Sig} {built : Option H}
    (hbuilt : ∀ x ∈ b.replica.builds P e, x ∈ built) (hstep : b.ofReplica P e = some b') :
    b'.Pending P ∧ Relation.ReflTransGen (ReplicaStep P built) b.replica b'.replica := by
  simp only [HotStuffBase.ofReplica, Option.ite_none_right_eq_some, Option.map_eq_some_iff] at hstep
  obtain ⟨_, nd, he, rfl⟩ := hstep
  have ha : b.replica.core.Advances P (fun _ => True) nd.core :=
    Replica.handle_advances h.wellFormed (fun _ _ => trivial) he
  exact ⟨(h.settle ha).1, .single ⟨e, hbuilt, he⟩⟩

/-- Every step keeps the promises in order, and is made of steps of the replica. -/
theorem step (h : b.Pending P) {e : Input H Sig} (hstep : b.step P e = some b') :
    b'.Pending P ∧ Relation.ReflTransGen (ReplicaStep P (b.builds P e)) b.replica b'.replica := by
  have hgoes (hg : b.Goes P b') :
      b'.Pending P ∧ Relation.ReflTransGen (ReplicaStep P (b.builds P e)) b.replica b'.replica :=
    ⟨hg.pending, Relation.ReflTransGen.mono (fun _ _ ht => Turn.replicaStep ht) _ _ hg.turns⟩
  cases e with
  | propose src proposer sHash slice data =>
    simp only [HotStuffBase.step, Option.ite_none_right_eq_some, Bool.and_eq_true,
      Option.some.injEq] at hstep
    obtain ⟨⟨⟨hidle, hsrc⟩, hslice⟩, rfl⟩ := hstep
    exact hgoes (h.proposeHandler (idle_iff.mp hidle).2.2 hsrc proposer sHash hslice data)
  | vote src vote =>
    simp only [HotStuffBase.step, Option.ite_none_right_eq_some, Option.some.injEq] at hstep
    obtain ⟨_, rfl⟩ := hstep
    exact hgoes (h.voteHandler vote)
  | reqBlock src hashes =>
    simp only [HotStuffBase.step, Option.ite_none_right_eq_some, Option.some.injEq] at hstep
    obtain ⟨_, rfl⟩ := hstep
    exact hgoes (h.reqBlkHandler src hashes)
  | respBlock src blks complete =>
    simp only [HotStuffBase.step, Option.ite_none_right_eq_some, Bool.and_eq_true,
      Option.some.injEq] at hstep
    obtain ⟨⟨hidle, _⟩, rfl⟩ := hstep
    exact hgoes (h.respBlkHandler (idle_iff.mp hidle).2.2 blks complete)
  | slice src hash slice =>
    exact h.ofReplica (e := .receiveSlice b.core.id src hash slice) (fun _ hx => nomatch hx) hstep
  | verified pm =>
    simp only [HotStuffBase.step, Option.ite_none_right_eq_some] at hstep
    exact hgoes (h.verified hstep.2)
  | proceed ord =>
    simp only [HotStuffBase.step, Option.ite_none_right_eq_some, Bool.and_eq_true] at hstep
    obtain ⟨⟨_, hidle⟩, hstep⟩ := hstep
    split at hstep
    · cases hstep
    rename_i f rest hframes
    obtain rfl := Option.some.inj hstep
    have hrest : ({ b with frames := rest } : HotStuffBase H Sig).Pending P := by
      refine { h with frames := fun g hg => ?_ }
      apply h.frames g
      rw [hframes]
      exact List.mem_cons_of_mem f hg
    have hf : b.FrameOk P f := by
      apply h.frames f
      rw [hframes]
      exact List.mem_cons_self
    obtain ⟨hpending, hturns⟩ := hrest.run hidle ord hf
    exact hgoes ⟨hpending, hturns⟩
  | onPropose ord cmds parents extra =>
    exact h.ofReplica (e := .propose b.core.id ord cmds parents extra) (fun _ hx => hx) hstep
  | asyncQcFinish blk =>
    exact h.ofReplica (e := .asyncQcFinish b.core.id blk) (fun _ hx => nomatch hx) hstep
  | runTask ord toSelf =>
    exact h.ofReplica (e := .runTask b.core.id ord toSelf) (fun _ hx => nomatch hx) hstep

theorem init (P : Primitives H Sig) (dummy : QuorumCert H Sig) (replicas : List NetAddr)
    (listenAddr : NetAddr) (id : ReplicaID) :
    (HotStuffBase.init P dummy replicas listenAddr id).Pending P := by
  refine ⟨(Core.start_started P id dummy replicas listenAddr).wellFormed, .nil, ?_, ?_, ?_, ?_, ?_⟩
  · exact fun _ ha => nomatch ha
  · exact fun _ ha => nomatch ha
  · exact fun _ hf => nomatch hf
  · exact fun _ _ hpm => nomatch hpm
  · exact fun _ _ hpm => nomatch hpm

end Pending

theorem grounded_steps {built : Option H} {own : List H} {nd nd' : Replica H Sig}
    (hsteps : Relation.ReflTransGen (ReplicaStep P built) nd nd')
    (h : nd.core.Grounded P (· ∈ built.toList ++ own)) :
    nd'.core.Grounded P (· ∈ built.toList ++ own) := by
  induction hsteps with
  | refl => exact h
  | tail _ hlast ih =>
    obtain ⟨e, hbuilds, he⟩ := hlast
    refine (Replica.handle_advances ih.wellFormed (fun x hx => ?_) he).grounded ih
    exact List.mem_append_left own (Option.mem_toList.mpr (hbuilds x hx))

/-- The promises are in order, and so are the delivered blocks. -/
theorem grounded {dummy : QuorumCert H Sig} {replicas : List NetAddr} {listenAddr : NetAddr}
    {id : ReplicaID} {s : HotStuffBase H Sig × List H}
    (h : Transition.Reaches (stepBuilding P) (fun _ _ => True)
      (HotStuffBase.init P dummy replicas listenAddr id, []) s) :
    s.1.Pending P ∧ s.1.replica.core.Grounded P (· ∈ s.2) := by
  induction h with
  | refl =>
    exact ⟨Pending.init P dummy replicas listenAddr id,
      Core.start_grounded P id dummy replicas listenAddr _⟩
  | tail _ hlast ih =>
    obtain ⟨e, _, hstep⟩ := hlast
    obtain ⟨hp, hg⟩ := ih
    obtain ⟨b', hb', rfl⟩ := Option.map_eq_some_iff.mp hstep
    obtain ⟨hp', hsteps⟩ := hp.step hb'
    exact ⟨hp', grounded_steps hsteps (hg.mono fun x hx => List.mem_append_right _ hx)⟩

/-- The delivered blocks form the graph that the protocol relies on: in every state that is reached,
whatever the peers send, and whenever the promises of the delivery are settled. -/
theorem delivered_dag {dummy : QuorumCert H Sig} {replicas : List NetAddr} {listenAddr : NetAddr}
    {id : ReplicaID} {b : HotStuffBase H Sig} {own : List H}
    (h : Transition.Reaches (stepBuilding P) (fun _ _ => True)
      (HotStuffBase.init P dummy replicas listenAddr id, []) (b, own)) :
    ∀ x blk, b.core.storage x = some blk → blk.delivered = true → x ≠ P.genesisHash →
      blk.parents = blk.parentHashes ∧ (∀ p ∈ blk.parents, b.core.delivered p = true) ∧
        (∃ p, blk.parents.head? = some p ∧ blk.height = b.core.height p + 1) ∧
        (∀ k, up b.core.parent0 k x = some P.genesisHash ↔ k = blk.height) ∧
        blk.qcRef = some blk.qc.objHash ∧ (b.core.storage blk.qc.objHash).isSome ∧
        (x ∈ own ∨ blk.qc.objHash = P.genesisHash ∨
          blk.qc.verify P b.core.config = some true) := by
  obtain ⟨_, hg⟩ := grounded h
  have hc : b.core.Dag P := hg.wellFormed.dag
  intro x blk hb hd hgen
  obtain ⟨hparents, hqcRef, p, hp, hpd, hheight⟩ := hc.linked hb hgen hd
  have hx : b.core.delivered x = true := by rw [Core.delivered_of hb, hd]
  refine ⟨hparents, ?_, ⟨p, ?_, hheight⟩, fun k => ?_, hqcRef, hg.qcStored hb hgen hd,
    hg.certified hb hgen hd⟩
  · rw [hparents]
    exact hg.parents hb hgen hd
  · rw [hparents, hp]
  · rw [hc.up_parent0 hx, ← Core.height_of hb]
    constructor
    · intro hk
      rw [hc.height_eq hx]
      exact (depth_eq P.parent_genesis hk).symm
    · intro hk
      rw [hk]
      exact hc.up_height hx

end HotStuffBase

namespace Concrete

/-- Replica 3 proposes block `h` of a table, with a slice that is for no block of a run. -/
def proposed (blocks : List (BlockData Nat Signature)) (h : Nat) : List (Input Nat Signature) :=
  blocks[h - 1]?.toList.map fun data =>
    .propose 3 3 ((primitives blocks []).hashSlice (anySlice 99)) (anySlice 99) data

set_option maxRecDepth 100000 in
theorem propose_run :
    (Transition.runBy (HotStuffBase.stepBuilding (primitives chainBlocks [])) (fun _ _ => True)
      (HotStuffBase.init (primitives chainBlocks []) noCert [10, 11, 12, 13] 10 0, [])
      (proposed chainBlocks 1 ++ List.replicate 6 (.proceed []))).map
        (fun s => (s.1.core.storage 1).map fun blk => (blk.delivered, blk.height)) =
      some (some (true, 1)) := by
  decide +kernel

/-- Replica 0 delivers the first block of the chain when it is proposed. -/
theorem delivered_dag_proposed : ∃ (b : HotStuffBase Nat Signature) (blk : Block Nat Signature),
    b.core.storage 1 = some blk ∧ blk.delivered = true ∧ blk.parents = blk.parentHashes ∧
      Chain.up b.core.parent0 1 1 = some 0 := by
  obtain ⟨⟨b, own⟩, hreach, hseen⟩ := Transition.runBy_map_reaches propose_run
  obtain ⟨blk, hb, hfields⟩ := Option.map_eq_some_iff.mp hseen
  obtain ⟨hd, hheight⟩ := Prod.mk.inj hfields
  obtain ⟨hparents, _, _, hup, _⟩ :=
    HotStuffBase.delivered_dag hreach 1 blk hb hd (by decide)
  exact ⟨b, blk, hb, hd, hparents, (hup 1).mpr hheight.symm⟩

end Concrete
end LibHotStuff
