import LibHotStuff.Proofs.DecidedCommands
import Mathlib

/-! The order in which commands are decided when every replica follows the code. -/

namespace LibHotStuff

open Chain

variable {H Sig : Type} {P : Primitives H Sig} [DecidableEq H] [DecidableEq Sig] {D : Deployment}
  {dummy : QuorumCert H Sig}

namespace Sys

variable {s s' : Sys H Sig} {built : List (H × List UInt256)} {e : Event H Sig}

/-- A block is built on one that has been built before. -/
theorem founded_step (hbuilt : s.Built P D built)
    (hf : Founded P.parent P.genesisHash (built.map Prod.fst)) (hstep : s.step P D e = some s') :
    Founded P.parent P.genesisHash (((s.builds P e).toList ++ built).map Prod.fst) := by
  obtain ⟨hc, nd, hnd, rfl⟩ := step_inv hstep
  cases e with
  | propose r ord cmds parents extra =>
    dsimp only [Event.at_] at hc
    cases parents with
    | nil => exact hf
    | cons p parents =>
      refine ⟨?_, hf⟩
      by_cases hgen : P.hashBlock ((s.node r).core.proposedData P cmds (p :: parents) extra) = P.genesisHash
      · exact Or.inl hgen
      have hparent : P.parent (P.hashBlock ((s.node r).core.proposedData P cmds (p :: parents) extra)) =
          some p := by
        rw [Primitives.parent, P.content_eq rfl hgen]
        rfl
      refine Or.inr ⟨p, hparent, ?_⟩
      simp only [handle, Option.ite_none_right_eq_some, Bool.and_eq_true, List.all_cons] at hnd
      obtain ⟨blk, hblk, _⟩ := Core.stored_of_delivered hnd.1.2.1
      by_cases hp : p = P.genesisHash
      · exact Or.inl hp
      obtain ⟨cmds', hmem⟩ := hbuilt.stored r hc p (by rw [hblk]; rfl) hp
      exact Or.inr (List.mem_map_of_mem hmem)
  | _ => exact hf

theorem founded_run (hall : D.byzantine = ∅) {x : Sys H Sig × List (H × List UInt256)}
    {cond : Sys H Sig × List (H × List UInt256) → Event H Sig → Prop}
    (h : Transition.Reaches (stepBuilding P D) cond (init P D dummy, []) x) :
    Founded P.parent P.genesisHash (x.2.map Prod.fst) := by
  induction h with
  | refl => trivial
  | tail hrun hlast ih =>
    obtain ⟨e, _, hstep⟩ := hlast
    obtain ⟨s', hnext, rfl⟩ := Option.map_eq_some_iff.mp hstep
    obtain ⟨_, _, hbuilt⟩ := building_run hall hrun
    exact founded_step hbuilt ih hnext

/-- What a replica decides: for each block that it executes nothing or the commands that the block
has been built of. The blocks are the first ones of a chain. -/
theorem decided_chain (hall : D.byzantine = ∅)
    (mds : P.leopard.Mds (RSE.setParams D.n).originalCount (RSE.setParams D.n).recoveryCount)
    {cond : Sys H Sig × List (H × List UInt256) → Event H Sig → Prop}
    (h : Transition.Reaches (stepBuilding P D) cond (init P D dummy, []) (s, built))
    {r : ReplicaID} (hr : r < D.n) : ∃ g : H → List UInt256,
      (decideLog (s.node r).log).map (·.cmdHash) = (consensusLog (s.node r).log).flatMap g ∧
      (∀ b ∈ consensusLog (s.node r).log, b ≠ P.genesisHash ∧ ∃ cmds, (b, cmds) ∈ built ∧
        (∀ cmds', (b, cmds') ∈ built → cmds' = cmds) ∧ (g b = [] ∨ g b = cmds)) ∧
      ∃ tip, (tip = P.genesisHash ∨ tip ∈ built.map Prod.fst) ∧
        consensusLog (s.node r).log <+: (path P.parent (P.depth tip) tip).reverse := by
  obtain ⟨hrun, _, hbuilt⟩ := building_run hall h
  obtain ⟨w, hsim⟩ := hrun.genuine_refined (R := Rules.any H Sig) (fun _ _ hcond => hcond.2)
    fun s e s' i _ _ _ _ => follows_any _ i
  have hc := correct_of_all hall hr
  have hv := hsim.reached.valid hc
  have hd := hsim.reached.decided mds (fun _ hs => hs) hc
  have hnode := hsim.node r hc
  have hstored {b : H} (hb : (w r).core.delivered b = true) (hgen : b ≠ P.genesisHash) :
      ∃ cmds, (b, cmds) ∈ built := by
    obtain ⟨blk, hblk, _⟩ := Core.stored_of_delivered hb
    refine hbuilt.stored r hc b ?_ hgen
    rw [← hnode.core, hblk]
    rfl
  obtain ⟨g, hg, hcmds⟩ := hd.decides
  rw [hsim.decideLog_eq hc, hnode.consensusLog_eq]
  refine ⟨g, ?_, fun b hb => ?_, ?_⟩
  · rw [hg, List.map_flatMap]
    simp only [Primitives.finalities_cmdHash]
  · obtain ⟨hdel, hgen⟩ := hd.executed hv.wellFormed hb
    obtain ⟨cmds, hmem⟩ := hstored hdel hgen
    have hunique (cmds' : List UInt256) (hmem' : (b, cmds') ∈ built) : cmds' = cmds :=
      (hbuilt.commands b cmds' hmem').unique (hbuilt.commands b cmds hmem)
    refine ⟨hgen, cmds, hmem, hunique, (hcmds b hb).imp_right fun ⟨S, hshards⟩ => ?_⟩
    exact hshards.commands.unique (hbuilt.commands b cmds hmem)
  · obtain ⟨tip, htip, hpre⟩ := hd.chain
    refine ⟨tip, ?_, hpre⟩
    by_cases hgen : tip = P.genesisHash
    · exact Or.inl hgen
    · obtain ⟨cmds, hmem⟩ := hstored htip hgen
      exact Or.inr (List.mem_map_of_mem hmem)

/-- Commands are decided in the order in which they have been proposed: let every replica follow the
code. In every run, however many of them propose, the commands that a replica has decided come, in
their order, from the lists that `on_propose` has been called with, each list used for one block. -/
theorem decided_sublist (hall : D.byzantine = ∅)
    (mds : P.leopard.Mds (RSE.setParams D.n).originalCount (RSE.setParams D.n).recoveryCount)
    {cond : Sys H Sig × List (H × List UInt256) → Event H Sig → Prop}
    (h : Transition.Reaches (stepBuilding P D) cond (init P D dummy, []) (s, built))
    {r : ReplicaID} (hr : r < D.n) :
    ((decideLog (s.node r).log).map (·.cmdHash)).Sublist (built.reverse.flatMap Prod.snd) := by
  obtain ⟨g, hg, hmem, tip, htip, hpre⟩ := decided_chain hall mds h hr
  have horder : (consensusLog (s.node r).log).Sublist (built.reverse.map Prod.fst) := by
    refine hpre.sublist.trans ?_
    obtain rfl | htip := htip
    · rw [P.depth_genesis]
      exact List.nil_sublist _
    · rw [List.map_reverse]
      exact (founded_run hall h).path_sublist P.parent_genesis htip
  let g' (b : H) : List UInt256 := if b ∈ consensusLog (s.node r).log then g b else []
  have heq : (consensusLog (s.node r).log).flatMap g = (consensusLog (s.node r).log).flatMap g' :=
    List.flatMap_congr fun b hb => (if_pos hb).symm
  rw [hg, heq]
  refine (horder.flatMap g').trans ?_
  rw [List.flatMap_map]
  apply List.Sublist.flatMap_right
  rintro ⟨b, cmds⟩ hbuilt
  dsimp only [g']
  split
  · rename_i hb
    obtain ⟨_, cmds', _, hunique, hnil | heq⟩ := hmem b hb
    · rw [hnil]
      exact List.nil_sublist _
    · rw [heq, hunique cmds (List.mem_reverse.mp hbuilt)]
  · exact List.nil_sublist _

end Sys

/-- Replica 0 has made four blocks of the same command and has decided the first one. -/
theorem Concrete.decided_sublist_paid :
    ∃ (s : Sys Nat Signature) (built : List (Nat × List UInt256)),
      (decideLog (s.node 0).log).map (·.cmdHash) = [command 1] ∧
      ((decideLog (s.node 0).log).map (·.cmdHash)).Sublist (built.reverse.flatMap Prod.snd) := by
  obtain ⟨⟨s, built⟩, hreach, hseen⟩ := Transition.runBy_map_reaches decided_run
  exact ⟨s, built, (Prod.mk.inj (Prod.mk.inj hseen).2).1,
    Sys.decided_sublist rfl (xorLeopard_mds 3) hreach (by decide)⟩

end LibHotStuff
