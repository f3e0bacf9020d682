import LibHotStuff.Proofs.Agreement
import LibHotStuff.Proofs.HighTail

namespace LibHotStuff

open Chain

variable {H Sig : Type} [DecidableEq H] {P : Primitives H Sig} {D : Deployment} {R : Rules H Sig}
  {dummy : QuorumCert H Sig} {w w' : Parties H Sig}

/-- The rules of a run in which own blocks extend `hqc`. -/
def Rules.extending (P : Primitives H Sig) : Rules H Sig :=
  { (Rules.any H Sig).raised P with
    propose := fun c blk => blk = P.genesisHash ∨ OnChain P.parent blk c.hqc.1 }

/-- Every stored block extends the block that its certificate is for. -/
def Core.Extending (P : Primitives H Sig) (c : Core H Sig) : Prop :=
  ∀ h, (c.storage h).isSome → OnChain P.parent h (P.justify h)

namespace Core.Extending

variable {c c' : Core H Sig}

omit [DecidableEq H] in
theorem of_sameDag (h : c.Extending P) (hs : c.SameDag c') : c'.Extending P := by
  intro x hx
  rw [hs.stored_iff] at hx
  exact h x hx

omit [DecidableEq H] in
theorem of_grows (h : c.Extending P) {x : H} (hg : c.Grows P c' x)
    (hx : OnChain P.parent x (P.justify x)) : c'.Extending P := by
  intro y hy
  rcases hg.stored y hy with hy | rfl
  · exact h y hy
  · exact hx

theorem move (h : c.Extending P) {outs : List (Output H Sig)}
    (hm : c.Move P (.extending P) outs c') : c'.Extending P := by
  cases hm with
  | pre hm =>
    cases hm with
    | shards _ => exact h
    | slice _ _ => exact h
    | prepare _ hp => exact h.of_sameDag hp.sameDag
    | @propose _ bnew hg _ hj hrule =>
      apply h.of_grows hg
      rcases hrule with rfl | hon
      · rw [P.justify_genesis]
        exact .refl _
      · rcases hj with hj | hd
        · rwa [hj]
        · obtain ⟨b, hb, _⟩ := stored_of_delivered hd
          exact h bnew (by rw [hb]; rfl)
  | commit hto _ _ => exact h.of_sameDag hto.committed.sameDag

end Core.Extending

omit [DecidableEq H] in
/-- Every block on the chain of `b_exec` has been decided. -/
theorem Core.Executed.decided_onChain {c : Core H Sig} {log : List (Output H Sig)}
    (h : c.Executed P log) (hc : c.WellFormed P) {b : H} (hon : OnChain P.parent c.bExec b) :
    c.decided b = true := by
  have hroot := hc.dag.onChain_genesis hc.execDelivered
  have hup := up_depth P.parent_genesis hroot
  change up P.parent (P.depth c.bExec) c.bExec = _ at hup
  obtain ⟨k, hk⟩ := hon
  have hle := (up_to_root_le P.parent_genesis hup hk).1
  rw [h.decided, h.log_eq, List.mem_reverse, mem_path hup]
  rcases Nat.lt_or_eq_of_le hle with hlt | heq
  · exact Or.inr ⟨k, hlt, hk⟩
  · rw [heq, hup] at hk
    exact Or.inl (Option.some.inj hk).symm

namespace Parties

/-- When all replicas are correct, every block in the system extends its certificate. -/
theorem Reached.extending (hall : D.byzantine = ∅) (h : Reached P D (.extending P) dummy w)
    {r : ReplicaID} (hr : D.Correct r) : (w r).core.Extending P := by
  refine h.invariant (J := fun _ _ p => p.core.Extending P) (fun r _ => ?_) (fun _ _ _ _ _ hp => hp)
    (fun w r p hreach hp hr _ ha _ => ?_) r hr
  · have hstart := Core.start_started P r dummy D.replicas (D.listenAddr r)
    intro x hx
    by_cases hgen : x = P.genesisHash
    · rw [hgen, P.justify_genesis]
      exact .refl _
    · rw [show (init P D dummy r).core.storage x = none from hstart.others x hgen] at hx
      cases hx
  have hc := (hreach.valid hr).wellFormed
  have he := hp r hr
  cases ha with
  | move hm => exact he.move hm
  | cut hto _ _ => exact he.of_sameDag hto.committed.sameDag
  | breach _ _ _ => exact he
  | vote _ _ _ => exact he
  | @store data hsent _ =>
    obtain ⟨src, hlt, hsrc⟩ := hsent
    have hcorrect : D.Correct src := ⟨hlt, by rw [hall]; exact Finset.notMem_empty src⟩
    obtain ⟨b, hb, _⟩ := hsrc hcorrect
    exact he.of_grows (Core.addBlk_grows hc data).1 (hp src hcorrect _ (by rw [hb]; rfl))
  | @deliver blk hd =>
    apply he.of_grows (Core.deliver_grows hc hd).1
    apply he blk
    unfold Replica.deliverable at hd
    cases hb : (w r).core.storage blk with
    | none => simp [hb] at hd
    | some b => rfl
  | count _ _ hk => exact he.of_sameDag hk.sameDag
  | raise _ _ _ _ => exact he

theorem extending_soundVotes (hall : D.byzantine = ∅) :
    (Rules.extending P).SoundVotes P D dummy := by
  intro w r blk s h hr hd hv
  obtain ⟨b, hb, _⟩ := Core.stored_of_delivered hd
  have hon := h.extending hall hr blk (by rw [hb]; rfl)
  exact ⟨hv.2, fun _ _ => Or.inl hon⟩

/-- What a replica has executed last may be committed. -/
theorem Reached.exec_head (h : Reached P D R dummy w) {r : ReplicaID} (hr : D.Correct r) :
    w.Head P D (w r).core.bExec := by
  refine h.invariant (J := fun w _ p => w.Head P D p.core.bExec) (fun r _ => ?_)
    (fun _ _ _ _ hle hp => hp.mono hle) (fun w r p hreach hp hr _ ha hle => ?_) r hr
  · have hstart := Core.start_started P r dummy D.replicas (D.listenAddr r)
    have hexec : (init P D dummy r).core.bExec = P.genesisHash := hstart.bExec
    exact Or.inl hexec
  have hhead := (hp r hr).mono hle
  rcases ha.marks_cases (hreach.valid hr).wellFormed with ⟨_, _, he⟩ | ⟨nblk, c', outs, _, hprep, rfl⟩ |
    ⟨nblk, b, res, done, hto, _, rfl⟩ | ⟨blk, qc, _, _, rfl⟩
  · rwa [he]
  · have he : c'.bExec = (w r).core.bExec := by
      have hx := congrArg Core.bExec hprep.rest
      exact hx
    rwa [he]
  · exact (Head.of_decides (hreach.justified hr) hto.toDecides).mono hle
  · exact hhead

/-- Every certified block that is as high as what a replica has executed extends it. -/
theorem Reached.finality (hR : R.SoundVotes P D dummy) (h : Reached P D R dummy w) {b x : H}
    (hb : w.Head P D b) (hx : w.Quorum D x) (hle : P.depth b ≤ P.depth x) :
    OnChain P.parent x b := by
  have hcert : (h.lockedVotes hR).Certified x := hx
  rcases hb with rfl | hb
  · exact LockedVotes.Certified.rooted hcert
  · have hchain : (h.lockedVotes hR).ThreeChain b := hb
    exact hchain.onChain hcert hle

/-- `update` never throws "safety breached" when the votes are sound. -/
theorem Reached.unbreached (hR : R.SoundVotes P D dummy) (h : Reached P D R dummy w)
    {r : ReplicaID} (hr : D.Correct r) : (w r).breached = false := by
  refine h.invariant (J := fun _ _ p => p.breached = false) (fun _ _ => rfl) (fun _ _ _ _ _ hp => hp)
    (fun w r p hreach hp hr hs ha _ => ?_) r hr
  have hold := hp r hr
  cases ha with
  | @breach nblk b e hdec hup hne =>
    exfalso
    have hv := hreach.valid hr
    have hc := hv.wellFormed
    have hbd := hdec.delivered hc
    have hrb := hc.dag.onChain_genesis hbd
    have hre := hc.dag.onChain_genesis hc.execDelivered
    rw [hc.dag.height_eq hbd, hc.dag.height_eq hc.execDelivered] at hup
    have hhead := Head.of_decides (hreach.justified hr) hdec
    rcases hreach.head_comparable hR hhead (hreach.exec_head hr) hrb hre with hon | hon
    · -- the walk from a block above `b_exec` ends at it
      have hu := (hon.up_sub P.parent_genesis hrb).2.2
      rw [Primitives.depth, Primitives.depth, hu] at hup
      exact hne (Option.some.inj hup).symm
    · -- what lies below `b_exec` has been decided
      have hdecided := (hv.executed hs).decided_onChain hc hon
      rw [hdec.undecided] at hdecided
      cases hdecided
  | move _ => exact hold
  | cut _ _ _ => exact hold
  | vote _ _ _ => exact hold
  | store _ _ => exact hold
  | deliver _ => exact hold
  | count _ _ _ => exact hold
  | raise _ _ _ _ => exact hold

end Parties

variable [DecidableEq Sig]

namespace Sys

variable {s s' : Sys H Sig}

/-- The pacemaker of the replica at which the event happens derives from `PMHighTail`. -/
def highTailed (s : Sys H Sig) (e : Event H Sig) : Bool := (s.node e.at_).highTailed e

/-- What a replica does in the system it does among any peers. -/
theorem handle_alone {e : Event H Sig} {nd : Replica H Sig} (h : s.handle P D e = some nd)
    (hid : (s.node e.at_).core.id = e.at_) (hn : (s.node e.at_).core.config.nreplicas = D.n) :
    (s.node e.at_).handle P e = some nd := by
  cases e with
  | fetch r src data =>
    simp only [handle, Option.ite_none_right_eq_some, Bool.and_eq_true] at h
    simp only [Replica.handle, Event.at_, h.1.1.1.1, if_true, h.2]
  | deliver r blk => exact h
  | receiveProposal r src ord prop =>
    simp only [Event.at_] at hid hn
    simp only [handle, Option.ite_none_right_eq_some, Bool.and_eq_true] at h
    obtain ⟨⟨⟨⟨⟨⟨⟨hidle, hprop⟩, hsrc⟩, hlt⟩, hdec⟩, _⟩, hdel⟩, hnd⟩ := h
    simp only [Replica.handle, Event.at_, hidle, hprop, hid, hn, hsrc, hlt, hdec, hdel,
      Bool.and_self, if_true, hnd]
  | receiveVote r ord vote =>
    simp only [Event.at_] at hid hn
    simp only [handle, Option.ite_none_right_eq_some, Bool.and_eq_true] at h
    obtain ⟨⟨⟨⟨⟨⟨hidle, hlt⟩, hver⟩, hobj⟩, _⟩, hdel⟩, hnd⟩ := h
    simp only [Replica.handle, Event.at_, hidle, hn, hlt, hver, hobj, hdel, Bool.and_self, if_true,
      hnd]
  | receiveSlice r src hash slice =>
    simp only [handle, Option.ite_none_right_eq_some, Bool.and_eq_true] at h
    obtain ⟨⟨⟨⟨hidle, _⟩, hdec⟩, _⟩, hnd⟩ := h
    simp only [Replica.handle, Event.at_, hidle, hdec, Bool.and_self, if_true, hnd]
  | propose r ord cmds parents extra => exact h
  | asyncQcFinish r blk => exact h
  | runTask r ord toSelf => exact h

/-- The system and its parties, with the invariant of the pacemakers. -/
structure TailSim (P : Primitives H Sig) (D : Deployment) (dummy : QuorumCert H Sig) (s : Sys H Sig)
    (w : Parties H Sig) : Prop extends s.Sim P D (.extending P) dummy w where
  tail : ∀ r, D.Correct r → (s.node r).HighTail P

omit [DecidableEq Sig] in
/-- A proposal on `get_parents` follows the rules. -/
theorem highTail_follows {nd : Replica H Sig} (h : nd.HighTail P) {e : Event H Sig}
    (hcond : nd.highTailed e = true) {i : Call H Sig} (hi : e.call? = some i) :
    nd.core.Follows P (.extending P) i := by
  cases i with
  | onReceiveProposal prop =>
    exact ⟨fun _ => trivial, fun _ _ _ => trivial, fun hr => ⟨trivial, hr⟩⟩
  | onReceiveSlice s => exact trivial
  | onPropose cmds parents extra =>
    rintro bnew hb
    refine ⟨?_, fun _ _ _ => trivial, fun _ _ _ => trivial, fun _ _ _ hr => ⟨trivial, hr⟩⟩
    by_cases hgen : bnew = P.genesisHash
    · exact Or.inl hgen
    have hpar : parents = nd.getParents := by
      cases e with
      | propose r ord cmds' parents' extra' =>
        obtain ⟨rfl, rfl, rfl⟩ := Call.onPropose.inj (Option.some.inj hi)
        exact of_decide_eq_true hcond
      | _ => cases hi
    have hparent : P.parent bnew = some nd.hqcTail := by
      rw [Primitives.parent, P.content_eq hb hgen, hpar]
      rfl
    exact Or.inr ((OnChain.of_parent hparent).trans h.onChain)
  | _ => exact trivial

theorem TailSim.step (h : s.TailSim P D dummy w) {e : Event H Sig} (hcond : s.highTailed e = true)
    (hstep : s.step P D e = some s') :
    ∃ w', Relation.ReflTransGen (Parties.Step P D (.extending P)) w w' ∧
      s'.TailSim P D dummy w' := by
  obtain ⟨hr, nd, hnd, rfl⟩ := step_inv hstep
  have htail := h.tail _ hr
  obtain ⟨w', hacts, hsim⟩ := h.toSim.step hstep fun i hi _ => highTail_follows htail hcond hi
  refine ⟨w', hacts, hsim, fun r hr' => ?_⟩
  have hv := h.reached.valid hr
  by_cases hrr : r = e.at_
  · subst hrr
    have hcore := (h.node _ hr).core
    have hid : (s.node e.at_).core.id = e.at_ := by rw [← hcore, hv.id]
    have hn : (s.node e.at_).core.config.nreplicas = D.n := by rw [← hcore, hv.nreplicas]
    simpa [Sys.set] using htail.handle hcond (handle_alone hnd hid hn)
  · simpa [Sys.set, hrr] using h.tail r hr'

theorem TailSim.reaches (h : s.TailSim P D dummy w)
    (hr : Transition.Reaches (Sys.step P D) (fun s e => s.highTailed e = true) s s') :
    ∃ w', Relation.ReflTransGen (Parties.Step P D (.extending P)) w w' ∧
      s'.TailSim P D dummy w' :=
  hr.simulated h fun _ _ _ _ hsim hcond hstep => hsim.step hcond hstep

omit [DecidableEq Sig] in
theorem init_tailSim (P : Primitives H Sig) (D : Deployment) (dummy : QuorumCert H Sig) :
    (init P D dummy).TailSim P D dummy (Parties.init P D dummy) :=
  { init_sim P D (.extending P) dummy with tail := fun _ _ => .init P dummy _ _ _ }

/-- Finality: when all replicas are correct and propose on `get_parents`, every block that is ever
certified and is not lower than the block last committed by a three-chain extends that block, and
"safety breached" is never thrown. -/
theorem commit_finality (hall : D.byzantine = ∅)
    (h : s.ReachableBy P D dummy fun s e => s.highTailed e = true)
    (h' : Transition.Reaches (Sys.step P D) (fun s e => s.highTailed e = true) s s')
    {r : ReplicaID} (hr : D.Correct r) :
    (∀ b, s'.Certified D b → P.depth (s.node r).core.bExec ≤ P.depth b →
      OnChain P.parent b (s.node r).core.bExec) ∧ .safetyBreached ∉ (s'.node r).thrown := by
  obtain ⟨w, _, hsim⟩ := (init_tailSim P D dummy).reaches h
  obtain ⟨w', hacts, hsim'⟩ := hsim.reaches h'
  have hR : (Rules.extending P).SoundVotes P D dummy := Parties.extending_soundVotes hall
  have hle : ∀ i, (w i).Le (w' i) := by
    have hrun := hacts
    clear hsim' hacts
    induction hrun with
    | refl => exact fun i => .refl _
    | tail hrun hstep ih =>
      have hreach : Parties.Reached P D (.extending P) dummy _ := hsim.reached.trans hrun
      exact fun i => (ih i).trans (hstep.le (fun r hr => hreach.valid hr) i)
  constructor
  · intro b hb hdepth
    rw [← (hsim.node r hr).core] at hdepth ⊢
    have hhead := (hsim.reached.exec_head hr).mono hle
    exact hsim'.reached.finality hR hhead (hsim'.quorum hb) hdepth
  · intro hthrown
    have hbreached := (hsim'.node r hr).breached hthrown
    rw [hsim'.reached.unbreached hR hr] at hbreached
    cases hbreached

end Sys

namespace Concrete

/-- Block 2 is certified at the height of block 1, which is committed below block 3. -/
def lateBlocks : List (BlockData Nat Signature) :=
  [ownBlock 0 (cert [] 0) 0, ownBlock 0 (cert [] 0) 1, ownBlock 1 (cert [] 0) 0,
    ownBlock 3 (cert [0, 2, 3] 3) 0, ownBlock 4 (cert [0, 2, 3] 4) 0,
    ownBlock 5 (cert [0, 2, 3] 5) 0]

/-- Replica `r` proposes on its tail. -/
def proposeOn (r parent : Nat) (tag : UInt8) : List (Event Nat Signature) :=
  .propose r [] [] [parent] [tag] :: List.replicate 6 (.runTask r [] true)

/-- Replicas `rs` get the proposal of block `h` by replica `src`, and `src` gets their votes. -/
def voteFrom (blocks : List (BlockData Nat Signature)) (src h : Nat) (rs : List Nat) :
    List (Event Nat Signature) :=
  (rs.flatMap fun r => adopt blocks src r h ++
    ((ownProposals src h)[r]?.toList.map fun prop => .receiveProposal r src [] prop) ++
      List.replicate 3 (.runTask r [] false)) ++
    (rs.map fun r => .receiveVote src []
      { voter := r, blkHash := h, cert := { objHash := h, sig := (r, h) } }) ++
    [.runTask src [] false]

/-- Replicas 1 to 3 certify block 2; replicas 0, 2 and 3 go on from block 1. -/
def lateRun : List (Event Nat Signature) :=
  proposeOn 0 0 0 ++ proposeOn 1 0 1 ++ voteFrom lateBlocks 1 2 [2, 3] ++
    [2, 3].flatMap (fun r => adopt lateBlocks 0 r 1) ++
    proposeOn 0 1 0 ++ voteFrom lateBlocks 0 3 [2, 3] ++
    proposeOn 0 3 0 ++ voteFrom lateBlocks 0 4 [2, 3] ++
    proposeOn 0 4 0 ++ voteFrom lateBlocks 0 5 [2, 3] ++ proposeOn 0 5 0

set_option maxRecDepth 100000 in
theorem late_run :
    (Transition.runBy (Sys.step (primitives lateBlocks []) fourCorrect)
      (fun s e => s.highTailed e = true)
      (Sys.init (primitives lateBlocks []) fourCorrect noCert) lateRun).map
        (fun s => (consensusLog (s.node 0).log, (s.node 0).core.bExec,
          (s.node 0).core.config.nmajority, [0, 1, 2, 3].map fun r => (s.signed r 2, s.signed r 5))) =
      some ([1, 3], 3, 3, [(false, true), (true, false), (true, true), (true, true)]) := by
  decide +kernel

theorem late_parent {h p : Nat} {d : BlockData Nat Signature} (hd : lateBlocks[h]? = some d)
    (hp : d.parentHashes.head? = some p) : (primitives lateBlocks []).parent (h + 1) = some p := by
  have hlt := (List.getElem?_eq_some_iff.mp hd).1
  have hhash : (primitives lateBlocks []).hashBlock d = h + 1 := by
    have hall : ∀ i < lateBlocks.length, ∀ e, lateBlocks[i]? = some e →
        tableHash lateBlocks encodeBlock e = i + 1 := by decide +kernel
    exact hall h hlt d hd
  rw [Primitives.parent, (primitives lateBlocks []).content_eq hhash (Nat.succ_ne_zero h)]
  exact hp

theorem late_depth {h k : Nat} (hup : up (primitives lateBlocks []).parent k h = some 0) :
    (primitives lateBlocks []).depth h = k :=
  depth_eq (primitives lateBlocks []).parent_genesis hup

theorem late_up : up (primitives lateBlocks []).parent 1 1 = some 0 ∧
    up (primitives lateBlocks []).parent 1 2 = some 0 ∧
    up (primitives lateBlocks []).parent 2 3 = some 0 ∧
    up (primitives lateBlocks []).parent 4 5 = some 0 := by
  have h₁ : (primitives lateBlocks []).parent 1 = some 0 :=
    late_parent (h := 0) rfl rfl
  have h₂ : (primitives lateBlocks []).parent 2 = some 0 :=
    late_parent (h := 1) rfl rfl
  have h₃ : (primitives lateBlocks []).parent 3 = some 1 :=
    late_parent (h := 2) rfl rfl
  have h₄ : (primitives lateBlocks []).parent 4 = some 3 :=
    late_parent (h := 3) rfl rfl
  have h₅ : (primitives lateBlocks []).parent 5 = some 4 :=
    late_parent (h := 4) rfl rfl
  simp [up_succ, h₁, h₂, h₃, h₄, h₅]

/-- Block 1 is committed as an ancestor of block 3, and block 2 of the same height is certified. -/
theorem commit_finality_ancestor : ∃ s : Sys Nat Signature,
    (s.ReachableBy (primitives lateBlocks []) fourCorrect noCert fun s e => s.highTailed e = true) ∧
      1 ∈ consensusLog (s.node 0).log ∧ s.Certified fourCorrect 2 ∧
      (primitives lateBlocks []).depth 1 ≤ (primitives lateBlocks []).depth 2 ∧
      ¬ OnChain (primitives lateBlocks []).parent 2 1 := by
  obtain ⟨s, hreach, hseen⟩ := Transition.runBy_map_reaches late_run
  simp only [Prod.mk.injEq, List.map_cons, List.map_nil, List.cons.injEq] at hseen
  obtain ⟨hlog, _, hmaj, ⟨_, _⟩, ⟨h₁, _⟩, ⟨h₂, _⟩, ⟨h₃, _⟩, _⟩ := hseen
  refine ⟨s, hreach, by rw [hlog]; decide, ?_, ?_, ?_⟩
  · refine ⟨0, {1, 2, 3}, by decide, by decide, by rw [hmaj]; decide, fun r hr _ => ?_⟩
    simp only [Finset.mem_insert, Finset.mem_singleton] at hr
    rcases hr with rfl | rfl | rfl
    · exact h₁
    · exact h₂
    · exact h₃
  · rw [late_depth late_up.1, late_depth late_up.2.1]
  · intro hon
    have hup := (hon.up_sub (primitives lateBlocks []).parent_genesis ⟨1, late_up.2.1⟩).2.2
    have hd₁ := late_depth late_up.1
    have hd₂ := late_depth late_up.2.1
    rw [Primitives.depth] at hd₁ hd₂
    rw [hd₁, hd₂] at hup
    simp at hup

theorem commit_finality_late : ∃ s : Sys Nat Signature, (s.node 0).core.bExec = 3 ∧
    OnChain (primitives lateBlocks []).parent 5 3 ∧ .safetyBreached ∉ (s.node 0).thrown := by
  obtain ⟨s, hreach, hseen⟩ := Transition.runBy_map_reaches late_run
  simp only [Prod.mk.injEq, List.map_cons, List.map_nil, List.cons.injEq] at hseen
  obtain ⟨_, hexec, hmaj, ⟨_, h₀⟩, ⟨_, _⟩, ⟨_, h₂⟩, ⟨_, h₃⟩, _⟩ := hseen
  have hcert : s.Certified fourCorrect 5 := by
    refine ⟨0, {0, 2, 3}, by decide, by decide, by rw [hmaj]; decide, fun r hr _ => ?_⟩
    simp only [Finset.mem_insert, Finset.mem_singleton] at hr
    rcases hr with rfl | rfl | rfl
    · exact h₀
    · exact h₂
    · exact h₃
  obtain ⟨hfinal, hthrown⟩ :=
    Sys.commit_finality (D := fourCorrect) (r := 0) rfl hreach .refl (by decide)
  rw [hexec] at hfinal
  refine ⟨s, hexec, hfinal 5 hcert ?_, hthrown⟩
  rw [late_depth late_up.2.2.1, late_depth late_up.2.2.2]
  decide

end Concrete
end LibHotStuff
