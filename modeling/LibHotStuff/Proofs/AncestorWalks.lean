import LibHotStuff.Proofs.DeliveredDag
import LibHotStuff.Proofs.SliceBinding

/-! The loops that walk down the first parents: `check_ancestry`, the voting rule and the commit. -/

namespace LibHotStuff

open Chain

variable {H Sig : Type} [DecidableEq H] {P : Primitives H Sig}

namespace Core

variable {c : Core H Sig} {blk target : H}

/-- The walk from a block down to the height of another ends, finds a parent wherever it asks for one,
and stops at the other block exactly when that one is on the chain. -/
def WalkExact (c : Core H Sig) (target blk : H) : Prop :=
  ∃ queue e, (∀ fuel, c.height blk < fuel → c.walkDown (c.height target) fuel blk = .ok (queue, e)) ∧
    (e = target ↔ OnChain c.parent0 blk target)

/-- The three loops that walk down from a delivered block. -/
structure Walks (c : Core H Sig) (blk : H) : Prop where
  walk : ∀ target, c.delivered target = true → c.WalkExact target blk
  checkAncestry : ∀ target, c.delivered target = true →
    (c.checkAncestry target blk = true ↔ OnChain c.parent0 blk target)
  lock : c.WalkExact c.bLock blk
  opinion : ∃ o, c.opinion blk = .ok o ∧ (o = true ↔ c.vheight < c.height blk ∧
    ((c.qcRef blk).any (fun q => decide (c.height c.bLock < c.height q)) = true ∨
      OnChain c.parent0 blk c.bLock))
  exec : c.WalkExact c.bExec blk
  commit : (c.commit blk).exit = some (.throw .safetyBreached) ↔ ¬ OnChain c.parent0 blk c.bExec

omit [DecidableEq H] in
/-- The chain through the stored blocks is the one that the hashes name. -/
theorem Dag.onChain_parent0 (hc : c.Dag P) (hd : c.delivered blk = true) (target : H) :
    OnChain c.parent0 blk target ↔ OnChain P.parent blk target := by
  unfold OnChain
  apply exists_congr
  intro k
  rw [hc.up_parent0 hd k]

omit [DecidableEq H] in
theorem Dag.walkExact (hc : c.Dag P) (hd : c.delivered blk = true)
    (ht : c.delivered target = true) : c.WalkExact target blk := by
  obtain ⟨queue, e, hend, hiff⟩ := hc.walkDown_end ht hd
  obtain ⟨e₁, hwalk₁, hup₁⟩ := hc.walkDown_eq hd (c.height target) (Nat.lt_succ_self _)
  refine ⟨queue, e, fun fuel hfuel => ?_, ?_⟩
  · obtain ⟨e₂, hwalk₂, hup₂⟩ := hc.walkDown_eq hd (c.height target) hfuel
    have heq : e₂ = e₁ := Option.some.inj (hup₂.symm.trans hup₁)
    rw [← hend, hwalk₁, hwalk₂, heq]
  · rw [hiff, hc.onChain_parent0 hd]

/-- The commit throws "safety breached" when `b_exec` is on another chain, and only then. -/
theorem WellFormed.commit_breach (hc : c.WellFormed P) (hd : c.delivered blk = true) :
    (c.commit blk).exit = some (.throw .safetyBreached) ↔ ¬ OnChain P.parent blk c.bExec := by
  obtain ⟨queue, e, hwalk, hiff⟩ := hc.dag.walkDown_end hc.execDelivered hd
  have hcommit : c.commit blk = if e ≠ c.bExec then .fail c (.throw .safetyBreached)
      else (c.commitAll queue.reverse).bind fun c => .ok { c with bExec := blk } := by
    rw [commit, hwalk]
  rw [← hiff, hcommit]
  by_cases he : e = c.bExec
  · rw [if_neg (not_not_intro he)]
    have hreturns : ((c.commitAll queue.reverse).bind fun c => .ok { c with bExec := blk }).exit ≠
        some (.throw .safetyBreached) := by
      intro hexit
      obtain ⟨done, hdone⟩ := commitAll_committed c queue.reverse
      cases hx : (c.commitAll queue.reverse).exit with
      | none =>
        rw [Res.bind_none hx] at hexit
        cases hexit
      | some f =>
        rw [Res.bind_some hx, hx] at hexit
        obtain ⟨b, hb⟩ := hdone.exit f hx
        rw [Option.some.inj hexit] at hb
        exact hc.futuresReturn b .safetyBreached hb
    exact ⟨fun hexit => absurd hexit hreturns, fun hne => absurd he hne⟩
  · rw [if_pos he]
    exact ⟨fun _ => he, fun _ => rfl⟩

theorem WellFormed.walks (hc : c.WellFormed P) (hd : c.delivered blk = true) : c.Walks blk := by
  have hchain := hc.dag.onChain_parent0 hd
  refine ⟨fun target ht => hc.dag.walkExact hd ht, fun target ht => ?_,
    hc.dag.walkExact hd hc.lockDelivered, ?_, hc.dag.walkExact hd hc.execDelivered, ?_⟩
  · rw [hchain]
    exact hc.dag.checkAncestry_iff ht hd
  · obtain ⟨o, ho, hiff⟩ := opinion_eq hc blk
    refine ⟨o, ho, ?_⟩
    rw [hiff, Approves, hchain, hc.dag.qcRef_eq hd]
    simp only [Option.any_some, decide_eq_true_eq]
  · rw [hchain]
    exact hc.commit_breach hd

end Core

namespace HotStuffBase

/-- Every walk down the first parents ends where it should: in every state that is reached, whatever
the peers send, and in the one that a handler is in when it gets to the voting rule. -/
theorem ancestor_walks {dummy : QuorumCert H Sig} {replicas : List NetAddr} {listenAddr : NetAddr}
    {id : ReplicaID} {b : HotStuffBase H Sig}
    (h : b.Runs P dummy replicas listenAddr id fun _ _ => True) {blk : H}
    (hd : b.core.delivered blk = true) :
    b.core.Walks blk ∧ ∀ prop : Proposal H, b.core.delivered prop.blk = true →
      ((b.core.onReceiveSlice P prop.slice).core.update P prop.blk).core.Walks blk := by
  have hp : b.Pending P := by
    apply h.invariant (.init P dummy replicas listenAddr id)
    exact fun b e b' hp _ hstep => (hp.step hstep).1
  have hc : b.core.WellFormed P := hp.wellFormed
  refine ⟨hc.walks hd, fun prop hprop => ?_⟩
  have hslice := Core.onReceiveSlice_wellFormed hc prop.slice
  have hsame := (Core.onReceiveSlice_sameBlocks (P := P) b.core prop.slice).sameDag
  have hprop' : (b.core.onReceiveSlice P prop.slice).core.delivered prop.blk = true := by
    rw [hsame.delivered, hprop]
  apply (Core.update_wellFormed hslice hprop').walks
  rw [(Core.update_sameBlocks hprop').sameDag.delivered, hsame.delivered, hd]

end HotStuffBase

namespace Concrete

/-- A chain of three blocks, and one beside the second. -/
def branchedBlocks : List (BlockData Nat Signature) :=
  chainBlocks.take 3 ++ [emptyBlock 1 (cert [0, 1, 3] 1) 1]

/-- Replica 0 gets a proposal and delivers its block when the certificate has been verified. -/
def proposedVerified (pm h : Nat) : List (Input Nat Signature) :=
  proposed branchedBlocks h ++ List.replicate 6 (.proceed []) ++
    .verified pm :: List.replicate 2 (.proceed [])

/-- And it votes. -/
def castVote : List (Input Nat Signature) := List.replicate 3 (.runTask [] false) ++ [.proceed []]

/-- What is seen of a replica: the delivered blocks, the lock, and two walks. -/
def seenWalks (b : HotStuffBase Nat Signature) : List Bool × Nat × Bool × Bool :=
  ([1, 2, 3, 4].map b.core.delivered, b.core.bLock, b.core.checkAncestry 1 3,
    b.core.checkAncestry 2 4)

set_option maxRecDepth 100000 in
theorem walk_run :
    (Transition.runBy (HotStuffBase.step (primitives branchedBlocks [])) (fun _ _ => True)
      (HotStuffBase.init (primitives branchedBlocks []) noCert [10, 11, 12, 13] 10 0)
      (proposed branchedBlocks 1 ++ List.replicate 9 (.proceed []) ++
        List.replicate 3 (.runTask [] false) ++ proposedVerified 7 2 ++ castVote ++
        proposedVerified 12 3 ++ castVote ++ proposedVerified 17 4)).map seenWalks =
      some ([true, true, true, true], 1, true, false) := by
  decide +kernel

/-- The replica is locked on the first block: the walk from the third one finds it, and the one from
the block beside does not meet the second. -/
theorem ancestor_walks_proposed : ∃ b : HotStuffBase Nat Signature, b.core.bLock = 1 ∧
    b.core.Walks 3 ∧ OnChain b.core.parent0 3 1 ∧
      b.core.Walks 4 ∧ ¬ OnChain b.core.parent0 4 2 := by
  obtain ⟨b, hreach, hseen⟩ := Transition.runBy_map_reaches walk_run
  simp only [seenWalks, List.map_cons, List.map_nil, Prod.mk.injEq, List.cons.injEq,
    and_true] at hseen
  obtain ⟨⟨h₁, h₂, h₃, h₄⟩, hlock, hfound, hmissed⟩ := hseen
  have hwalks₃ := (HotStuffBase.ancestor_walks hreach h₃).1
  have hwalks₄ := (HotStuffBase.ancestor_walks hreach h₄).1
  refine ⟨b, hlock, hwalks₃, (hwalks₃.checkAncestry 1 h₁).mp hfound, hwalks₄, fun hon => ?_⟩
  rw [(hwalks₄.checkAncestry 2 h₂).mpr hon] at hmissed
  cases hmissed

end Concrete
end LibHotStuff
