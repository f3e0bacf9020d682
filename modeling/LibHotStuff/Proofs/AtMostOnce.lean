import LibHotStuff.Proofs.SubmittedCommands

/-! How often a command is executed when every replica follows the code. -/

namespace LibHotStuff

open Chain

variable {H Sig : Type} {P : Primitives H Sig}

/-- No block that has been built has a command twice, or a command of an ancestor. The ancestors
have been built too. -/
structure Primitives.Unrepeated (P : Primitives H Sig) (built : List (H × List UInt256)) : Prop where
  nodup : ∀ b cmds, (b, cmds) ∈ built → cmds.Nodup
  ancestors : ∀ b cmds, (b, cmds) ∈ built → ∀ p, P.parent b = some p → ∀ a, OnChain P.parent p a →
    a ≠ P.genesisHash → ∃ cmds', (a, cmds') ∈ built ∧ cmds.Disjoint cmds'

variable [DecidableEq H]

namespace Sys

variable [DecidableEq Sig] {D : Deployment} {dummy : QuorumCert H Sig} {s s' : Sys H Sig}
  {built : List (H × List UInt256)} {e : Event H Sig}

/-- A call of `on_propose` has no command twice, and none of a block that the new one extends. -/
def unrepeated (x : Sys H Sig × List (H × List UInt256)) : Event H Sig → Bool
  | .propose r _ cmds (p :: _) _ =>
    decide cmds.Nodup && x.2.all fun (b, cmds') =>
      !(x.1.node r).core.checkAncestry b p || cmds.all (· ∉ cmds')
  | _ => true

/-- A block that is built with new commands. -/
theorem unrepeated_step (hbuilt : s.Built P D built) (hu : P.Unrepeated built)
    (hreach : s.Reachable P D dummy) (hcond : unrepeated (s, built) e = true)
    (hstep : s.step P D e = some s') : P.Unrepeated ((s.builds P e).toList ++ built) := by
  obtain ⟨hc, nd, hnd, rfl⟩ := step_inv hstep
  obtain ⟨_, _, _, hwf⟩ := hreach.valid hc
  cases e with
  | propose r ord cmds parents extra =>
    dsimp only [Event.at_] at hc hwf
    cases parents with
    | nil => exact hu
    | cons p parents =>
      change P.Unrepeated ((_, cmds) :: built)
      simp only [handle, Option.ite_none_right_eq_some, Bool.and_eq_true, List.all_cons] at hnd
      have hp : (s.node r).core.delivered p = true := hnd.1.2.1
      simp only [unrepeated, Bool.and_eq_true, decide_eq_true_eq, List.all_eq_true,
        Bool.or_eq_true, Bool.not_eq_true'] at hcond
      obtain ⟨hnodup, hnew⟩ := hcond
      refine ⟨fun b cmds' hmem => ?_, fun b cmds' hmem q hq a ha hgen => ?_⟩
      · obtain heq | hmem := List.mem_cons.mp hmem
        · obtain ⟨rfl, rfl⟩ := Prod.mk.inj heq
          exact hnodup
        · exact hu.nodup b cmds' hmem
      · obtain heq | hmem := List.mem_cons.mp hmem
        · obtain ⟨rfl, rfl⟩ := Prod.mk.inj heq
          obtain rfl : q = p := by
            have hne : P.hashBlock ((s.node r).core.proposedData P cmds' (p :: parents) extra) ≠
                P.genesisHash := by
              intro hgen
              rw [hgen, P.parent_genesis] at hq
              cases hq
            rw [Primitives.parent, P.content_eq rfl hne] at hq
            exact (Option.some.inj hq).symm
          -- an ancestor of a delivered block is stored, and so has been built
          have had := hwf.dag.delivered_onChain hp ha
          obtain ⟨blk, hblk, _⟩ := Core.stored_of_delivered had
          obtain ⟨cmds₀, hmem⟩ := hbuilt.stored r hc a (by rw [hblk]; rfl) hgen
          refine ⟨cmds₀, List.mem_cons_of_mem _ hmem, fun cmd hcmd hcmd₀ => ?_⟩
          obtain hno | hall := hnew (a, cmds₀) hmem
          · have hyes := (hwf.dag.checkAncestry_iff had hp).mpr ha
            exact absurd (hno.symm.trans hyes) Bool.false_ne_true
          · exact hall cmd hcmd hcmd₀
        · obtain ⟨cmds₀, hmem₀, hdisj⟩ := hu.ancestors b cmds' hmem q hq a ha hgen
          exact ⟨cmds₀, List.mem_cons_of_mem _ hmem₀, hdisj⟩
  | _ => exact hu

theorem unrepeated_run (hall : D.byzantine = ∅) {x : Sys H Sig × List (H × List UInt256)}
    (h : Transition.Reaches (stepBuilding P D) (fun x e => unrepeated x e = true)
      (init P D dummy, []) x) : P.Unrepeated x.2 := by
  induction h with
  | refl => exact ⟨nofun, nofun⟩
  | @tail x x' hrun hlast ih =>
    obtain ⟨e, hcond, hstep⟩ := hlast
    obtain ⟨s', hnext, rfl⟩ := Option.map_eq_some_iff.mp hstep
    obtain ⟨hreach, _, hbuilt⟩ := building_run hall hrun
    exact unrepeated_step hbuilt ih (hreach.mono fun _ _ _ => trivial) hcond hnext

/-- Let every replica follow the code, and let no call of `on_propose` repeat a command, of the call
or of a block that the new one extends. Then no replica decides a command twice. -/
theorem decided_nodup (hall : D.byzantine = ∅)
    (mds : P.leopard.Mds (RSE.setParams D.n).originalCount (RSE.setParams D.n).recoveryCount)
    (h : Transition.Reaches (stepBuilding P D) (fun x e => unrepeated x e = true)
      (init P D dummy, []) (s, built)) {r : ReplicaID} (hr : r < D.n) :
    ((decideLog (s.node r).log).map (·.cmdHash)).Nodup := by
  have hu : P.Unrepeated built := unrepeated_run hall h
  obtain ⟨g, hg, hmem, tip, _, hpre⟩ := decided_chain hall mds h hr
  rw [hg, List.nodup_flatMap]
  refine ⟨fun b hb => ?_, ?_⟩
  · obtain ⟨_, cmds, hbuilt, _, hnil | heq⟩ := hmem b hb
    · rw [hnil]
      exact List.nodup_nil
    · rw [heq]
      exact hu.nodup b cmds hbuilt
  · have hpair := (List.pairwise_reverse.mpr (path_ancestors (P.depth tip) tip)).sublist
      hpre.sublist
    refine hpair.imp_of_mem fun {a b} ha hb ⟨p, hp, hon⟩ => ?_
    obtain ⟨hgen, cmds', _, hunique, hnil' | heq'⟩ := hmem a ha
    · rw [Function.onFun, hnil']
      exact List.disjoint_nil_left _
    obtain ⟨_, cmds, hb', _, hnil | heq⟩ := hmem b hb
    · rw [Function.onFun, hnil]
      exact List.disjoint_nil_right _
    obtain ⟨cmds₀, ha₀, hdisj⟩ := hu.ancestors b cmds hb' p hp a hon hgen
    rw [Function.onFun, heq, heq', ← hunique cmds₀ ha₀]
    exact hdisj.symm

end Sys

namespace RRSys

variable [DecidableEq Sig] {D : Deployment} {dummy : QuorumCert H Sig} {x x' : RRSys H Sig}

/-- A step is made of steps of the network that repeat no command. -/
theorem step_builds_unrepeated {e : RREvent H Sig} (hcond : x.unrepeated e = true)
    (h : x.step P D e = some x') : Paced.Builds P D (fun y e => Sys.unrepeated y e = true) x x' := by
  refine step_builds (fun s built i hnone => ?_) (fun r ord cmds rest he hcalls => ?_) h
  · cases i with
    | propose r ord cmds parents extra =>
      cases parents with
      | nil => rfl
      | cons p parents => cases hnone
    | _ => rfl
  · subst he
    simp only [unrepeated, hcalls] at hcond
    exact hcond

/-- Commands are executed at most once: let every replica follow the code with `PaceMakerRR`. In every
run in which no call of `on_propose` repeats a command, of the call or of a block that the new one
extends, no replica calls `state_machine_execute` twice for a command. -/
theorem executes_once (hall : D.byzantine = ∅)
    (mds : P.leopard.Mds (RSE.setParams D.n).originalCount (RSE.setParams D.n).recoveryCount)
    {blkSize : Nat} (h : Transition.Reaches (step P D) (fun x e => x.unrepeated e = true)
      (init P D dummy blkSize) x) {r : ReplicaID} (hr : r < D.n) :
    ((decideLog (x.sys.node r).log).map (·.cmdHash)).Nodup := by
  have hbuilds : Paced.Builds P D (fun y e => Sys.unrepeated y e = true)
      (init P D dummy blkSize) x := by
    induction h with
    | refl => exact .refl
    | tail _ hlast ih =>
      obtain ⟨e, hcond, hstep⟩ := hlast
      exact ih.trans (step_builds_unrepeated hcond hstep)
  exact Sys.decided_nodup hall mds hbuilds hr

end RRSys

namespace Concrete

/-- The commands that wait in the end. -/
def pendingCommands : List UInt256 := [1, 2, 3, 4, 5].map command

/-- The lists of commands of some blocks. -/
def commandLists : List (List UInt256) :=
  [[], [command 2], [command 3], [command 4], [command 5], pendingCommands]

/-- The list that each block of replica 1 is made of. -/
def chosenLists : List Nat := [1, 2, 3, 4, 5, 0, 0, 0]

/-- The blocks of replica 1, each on the one before. -/
def repeatedBlocks : List (BlockData Nat Signature) :=
  [(0, cert [] 0), (1, cert [1, 2, 3] 1), (2, cert [1, 2, 3] 2), (3, cert [1, 2, 3] 3),
    (4, cert [1, 2, 3] 3), (5, cert [1, 2, 3] 5), (6, cert [1, 2, 3] 6), (7, cert [1, 2, 3] 7)].zipWith
      (fun (parent, qc) k => { parentHashes := [parent], cmds := [k + 1], qc := qc, extra := [] })
      chosenLists

def repeating : Primitives Nat Signature := primitives repeatedBlocks commandLists

def repeatedProposals (h : Nat) : List (Proposal Nat) :=
  commandProposals 1 h (commandLists.getD (chosenLists.getD (h - 1) 0) [])

/-- Replica 1 proposes while its pacemaker rotates. -/
def proposeRotating : List (RREvent Nat Signature) :=
  .propose 1 [] :: List.replicate 5 (.runTask 1 []) ++ [.returns 1]

/-- Replica 1 proposes, and `last_proposed` is updated. -/
def proposeSettled : List (RREvent Nat Signature) :=
  .propose 1 [] :: List.replicate 3 (.runTask 1 []) ++ List.replicate 2 (.runPacemaker 1) ++
    List.replicate 2 (.runTask 1 []) ++ [.returns 1]

/-- A command is submitted at replica 1, and a beat is made for it. -/
def submitCommand (k : UInt8) : List (RREvent Nat Signature) :=
  [.execCommand 1 (command k), .handleCommand 1, .runPacemaker 1]

/-- Replicas 2 and 3 get block `h`, after some others, and vote for it, and replica 1 gets their
votes. -/
def certify (missing : List Nat) (h : Nat) : List (RREvent Nat Signature) :=
  ([2, 3].flatMap fun r =>
    (missing ++ [h]).flatMap (fun b => (adopt repeatedBlocks 1 r b).map .arrive) ++
      ((repeatedProposals h)[r]?.toList.map fun prop => .arrive (.receiveProposal r 1 [] prop)) ++
        List.replicate 3 (.runTask r [])) ++
  ([2, 3].map fun r => .arrive (.receiveVote 1 []
    { voter := r, blkHash := h, cert := { objHash := h, sig := (r, h) } })) ++ [.runTask 1 []]

/-- The slices that replicas 2 and 3 have sent arrive at replica 1. -/
def gather (h : Nat) : List (RREvent Nat Signature) :=
  [2, 3].flatMap fun r => (repeatedProposals h)[r]?.toList.map fun prop =>
    .arrive (.receiveSlice 1 r prop.sHash prop.slice)

/-- The certificate of its last block makes the pacemaker propose. -/
def proposeNext : List (RREvent Nat Signature) :=
  .runPacemaker 1 :: proposeSettled ++ [.runPacemaker 1, .runTask 1 []]

/-- Replica 1 waits for a command and rotates, proposes four more commands, and with the fourth of
these blocks commits the first one, which ends the rotation. -/
def rotation (slices : Nat) : List (RREvent Nat Signature) :=
  [.execCommand 1 (command 1), .handleCommand 1, .impeach 1] ++
    ([1, 2, 3].flatMap fun h => submitCommand (.ofNat (h + 1)) ++ proposeRotating ++ certify [] h ++
      if h = slices then gather h else []) ++ submitCommand 5 ++ proposeSettled

/-- Replica 1 proposes again what waits, and three more blocks. -/
def reproposal : List (RREvent Nat Signature) :=
  .asyncCall 1 pendingCommands :: proposeSettled ++ certify [4] 5 ++ proposeNext ++ gather 5 ++
    certify [] 6 ++ proposeNext ++ certify [] 7 ++ proposeNext

/-- The commands that replica 1 has executed. -/
def executedBy1 (x : RRSys Nat Signature) : List UInt256 :=
  (decideLog (x.sys.node 1).log).map (·.cmdHash)

set_option maxRecDepth 100000 in
theorem rotation_run : (Transition.runBy (RRSys.step repeating fourCorrect)
    (fun x e => x.unrepeated e = true) (RRSys.init repeating fourCorrect noCert 1)
      (rotation 1)).map executedBy1 = some [command 2] := by
  decide +kernel

/-- The run up to the end of the rotation. -/
theorem executes_once_rotating : ∃ x : RRSys Nat Signature, executedBy1 x = [command 2] ∧
    ((decideLog (x.sys.node 1).log).map (·.cmdHash)).Nodup := by
  obtain ⟨x, hreach, hexec⟩ := Transition.runBy_map_reaches rotation_run
  exact ⟨x, hexec, RRSys.executes_once rfl (xorLeopard_mds 3) hreach (by decide)⟩

/-- The command that replica 1 has executed has been submitted. -/
theorem executes_submitted_rotating : ∃ x : RRSys Nat Signature, executedBy1 x = [command 2] ∧
    ∃ r' < fourCorrect.n, command 2 ∈ (x.base r').submitted := by
  obtain ⟨x, hreach, hexec⟩ := Transition.runBy_map_reaches rotation_run
  have hmem : command 2 ∈ executedBy1 x := by
    rw [hexec]
    exact List.mem_singleton_self _
  exact ⟨x, hexec, RRSys.executes_submitted rfl (xorLeopard_mds 3)
    (hreach.mono fun _ _ _ => trivial) (by decide : 1 < fourCorrect.n) hmem⟩

/-- What replica 1 has executed, and what has been submitted at each replica. -/
def executedSubmitted (x : RRSys Nat Signature) : List UInt256 × List (List UInt256) :=
  (executedBy1 x, (List.range 4).map fun r => (x.base r).submitted)

set_option maxRecDepth 100000 in
theorem reproposal_run : (Transition.runBy (RRSys.step repeating fourCorrect) (fun _ _ => True)
    (RRSys.init repeating fourCorrect noCert 1) (rotation 2 ++ reproposal)).map executedSubmitted =
      some (command 3 :: pendingCommands, [[], pendingCommands.reverse, [], []]) := by
  decide +kernel

/-- All four replicas follow the code, and each command is submitted once, to replica 1. When the
rotation ends, the block of the command 3 is in flight, and `stop_rotate` has all waiting commands
proposed again. Both blocks are committed, and replica 1 executes the command twice. -/
theorem executed_twice : ∃ x : RRSys Nat Signature,
    Transition.Reaches (RRSys.step repeating fourCorrect) (fun _ _ => True)
      (RRSys.init repeating fourCorrect noCert 1) x ∧
    (∀ r < fourCorrect.n, (x.base r).submitted.Nodup) ∧
    ¬((decideLog (x.sys.node 1).log).map (·.cmdHash)).Nodup := by
  obtain ⟨x, hreach, hseen⟩ := Transition.runBy_map_reaches reproposal_run
  obtain ⟨hexec, hsubmitted⟩ := Prod.mk.inj hseen
  refine ⟨x, hreach, fun r hr => ?_, fun hnodup => ?_⟩
  · have hmem : (x.base r).submitted ∈ (List.range 4).map fun r => (x.base r).submitted :=
      List.mem_map_of_mem (List.mem_range.mpr hr)
    rw [hsubmitted] at hmem
    have hall : ∀ l ∈ [[], pendingCommands.reverse, [], []], l.Nodup := by decide
    exact hall _ hmem
  · change (executedBy1 x).Nodup at hnodup
    rw [hexec, List.nodup_cons] at hnodup
    exact hnodup.1 (by decide)

end Concrete
end LibHotStuff
