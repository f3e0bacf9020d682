import LibHotStuff.Proofs.Finality
import LibHotStuff.Proofs.PeerNetwork

/-! What the protocol guarantees, of the replicas as they run. -/

namespace LibHotStuff

variable {PubKey H Sig : Type} [DecidableEq H] [DecidableEq Sig] {P : Primitives H Sig}
  {F : Formats PubKey Sig} {name : UInt256 → H} {D : Deployment} {dummy : QuorumCert H Sig}

namespace PeerNetwork

variable {s : PeerNetwork H Sig} {built : List (H × List UInt256)}

/-- Every event that a step makes meets a condition. -/
def meets (cond : Sys H Sig → Event H Sig → Bool) (F : Formats PubKey Sig) (name : UInt256 → H)
    (s : PeerNetwork H Sig) (e : ReplicaID × Arrival H Sig) : Bool :=
  (s.makes F name e).all (cond s.sys)

/-- The replicas below the handlers reach what they reach in the network. -/
theorem reachableBy (cond : Sys H Sig → Event H Sig → Bool)
    (hfetch : ∀ s r src data, cond s (.fetch r src data) = true)
    (h : Transition.Reaches (stepBuilding P F name D) (fun x e => x.1.meets cond F name e = true)
      (init P D dummy, []) (s, built)) :
    s.sys.ReachableBy P D dummy fun s e => cond s e = true := by
  let holds (x : Sys H Sig × List (H × List UInt256)) (e : Event H Sig) : Prop := cond x.1 e = true
  have hstored (x) (r src : ReplicaID) (data : BlockData H Sig) : holds x (.fetch r src data) :=
    hfetch x.1 r src data
  have hrun : Transition.Reaches (Sys.stepBuilding P D) holds (Sys.init P D dummy, [])
      (s.sys, built) :=
    (faithful_run hstored (h.mono fun x e hall => List.all_eq_true.mp hall)).reaches
  have hall {x : Sys H Sig × List (H × List UInt256)}
      (h : Transition.Reaches (Sys.stepBuilding P D) holds (Sys.init P D dummy, []) x) :
      x.1.ReachableBy P D dummy fun s e => cond s e = true := by
    induction h with
    | refl => exact .refl
    | tail _ hlast ih =>
      obtain ⟨e, hcond, hstep⟩ := hlast
      obtain ⟨s, hs, rfl⟩ := Option.map_eq_some_iff.mp hstep
      exact ih.tail ⟨e, hcond, hs⟩
  exact hall hrun

/-- Agreement of the replicas as they run: whatever bytes faulty ones send, as long as no correct
replica runs the voting rule on a block that neither extends its lock nor the block that its
certificate is for, what two correct replicas have given to `do_consensus` is the same as far as it
goes. -/
theorem peers_agree
    (h : Transition.Reaches (stepBuilding P F name D)
      (fun x e => x.1.meets (Sys.votesSoundly P) F name e = true) (init P D dummy, []) (s, built))
    {i j : ReplicaID} (hi : D.Correct i) (hj : D.Correct j) :
    consensusLog (s.node i).replica.log <+: consensusLog (s.node j).replica.log ∨
      consensusLog (s.node j).replica.log <+: consensusLog (s.node i).replica.log := by
  have hrun := reachableBy (Sys.votesSoundly P) (fun _ _ _ _ => rfl) h
  obtain ⟨w, hsim⟩ := hrun.refined (R := .sound P)
    fun s e _ _ _ _ hc _ hi _ => Sys.votesSoundly_follows hc hi
  have hagree := hsim.reached.agreement Rules.sound_soundVotes hi hj
  rw [← (hsim.node i hi).consensusLog_eq, ← (hsim.node j hj).consensusLog_eq] at hagree
  exact hagree

/-- The replicas as they run, when all of them follow the code and propose on `get_parents`: what two
of them have given to `do_consensus` is the same as far as it goes, and none throws "safety
breached". -/
theorem peers_safe (hall : D.byzantine = ∅)
    (h : Transition.Reaches (stepBuilding P F name D)
      (fun x e => x.1.meets Sys.highTailed F name e = true) (init P D dummy, []) (s, built))
    {i j : ReplicaID} (hi : i < D.n) (hj : j < D.n) :
    (consensusLog (s.node i).replica.log <+: consensusLog (s.node j).replica.log ∨
      consensusLog (s.node j).replica.log <+: consensusLog (s.node i).replica.log) ∧
      .safetyBreached ∉ (s.node i).replica.thrown := by
  have hci := Sys.correct_of_all hall hi
  have hcj := Sys.correct_of_all hall hj
  have hrun := reachableBy Sys.highTailed (fun _ _ _ _ => rfl) h
  obtain ⟨w, _, hsim⟩ := (Sys.init_tailSim P D dummy).reaches hrun
  have hR : (Rules.extending P).SoundVotes P D dummy := Parties.extending_soundVotes hall
  have hagree := hsim.reached.agreement hR hci hcj
  rw [← (hsim.node i hci).consensusLog_eq, ← (hsim.node j hcj).consensusLog_eq] at hagree
  refine ⟨hagree, fun hthrown => ?_⟩
  have hbreached := (hsim.node i hci).breached hthrown
  rw [hsim.reached.unbreached hR hci] at hbreached
  cases hbreached

end PeerNetwork

namespace Concrete

open DataStream Codec
open Wire.Concrete (hashName)

theorem peers_agree_offered : ∃ s : PeerNetwork Nat Signature,
    consensusLog (s.node 0).replica.log = [1] ∧ consensusLog (s.node 1).replica.log = [1] ∧
      (consensusLog (s.node 0).replica.log <+: consensusLog (s.node 1).replica.log ∨
        consensusLog (s.node 1).replica.log <+: consensusLog (s.node 0).replica.log) := by
  obtain ⟨⟨s, built⟩, hreach, hlogs⟩ := Transition.runBy_map_reaches offered_run
  obtain ⟨h₀, h₁⟩ := Prod.mk.inj hlogs
  exact ⟨s, h₀, h₁, PeerNetwork.peers_agree (hreach.mono fun _ _ hall => List.all_eq_true.mpr hall)
    (by decide) (by decide)⟩

/-- The `MsgVote` of a replica. -/
def voteBytes (voter h : Nat) : Arrival Nat Signature :=
  .message voter .vote
    (leBytes 2 voter ++ (leBytes 32 h ++ (leBytes 32 h ++ signatureFormats.putSig (voter, h))))

/-- Replica 0 gets a vote for block `h`, which workers verify. -/
def takeVote (voter h : Nat) : List (ReplicaID × Arrival Nat Signature) :=
  (0, voteBytes voter h) :: turns 0 2 (.proceed []) ++
    turns 0 1 (.verified (4 * h + 2 * voter - 5)) ++ turns 0 1 (.proceed [])

/-- Replica 0 makes block `h`, and replicas 1 and 2 vote for it. -/
def peerRound (h : Nat) : List (ReplicaID × Arrival Nat Signature) :=
  let props := commandProposals 0 h [command 1]
  turns 0 1 (.onPropose [] [command 1] [h - 1] [0]) ++ turns 0 6 (.runTask [] true) ++
    ([1, 2].flatMap fun r => props[r]?.toList.flatMap fun prop =>
      (paidBlocks [0, 1, 2])[h - 1]?.toList.flatMap fun d =>
        takeProposal r h (proposalBytes 0 prop d)) ++
    takeVote 1 h ++ takeVote 2 h ++ turns 0 1 (.runTask [] false)

set_option maxRecDepth 100000 in
theorem peer_run :
    (Transition.runBy
      (PeerNetwork.stepBuilding (paid [0, 1, 2]) signatureFormats hashName fourCorrect)
      (fun x e => x.1.meets Sys.highTailed signatureFormats hashName e = true)
      (PeerNetwork.init (paid [0, 1, 2]) fourCorrect noCert, []) ([1, 2, 3, 4].flatMap peerRound)).map
        (fun x => (consensusLog (x.1.node 0).replica.log, consensusLog (x.1.node 1).replica.log)) =
      some ([1], [1]) := by
  decide +kernel

/-- Replica 0 makes four blocks, and replicas 0 and 1 commit the first one. -/
theorem peers_safe_paid : ∃ s : PeerNetwork Nat Signature,
    consensusLog (s.node 0).replica.log = [1] ∧ consensusLog (s.node 1).replica.log = [1] ∧
      (consensusLog (s.node 0).replica.log <+: consensusLog (s.node 1).replica.log ∨
        consensusLog (s.node 1).replica.log <+: consensusLog (s.node 0).replica.log) ∧
      .safetyBreached ∉ (s.node 0).replica.thrown := by
  obtain ⟨⟨s, built⟩, hreach, hlogs⟩ := Transition.runBy_map_reaches peer_run
  obtain ⟨h₀, h₁⟩ := Prod.mk.inj hlogs
  exact ⟨s, h₀, h₁, PeerNetwork.peers_safe rfl hreach (by decide) (by decide)⟩

end Concrete
end LibHotStuff
