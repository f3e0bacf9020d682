import LibHotStuff.Proofs.Tally
import LibHotStuff.Proofs.Concrete

namespace LibHotStuff

variable {H Sig : Type}

/-- A vote that is handed to `do_vote` is a valid vote of replica `id`. -/
def Task.voteValid (P : Primitives H Sig) (id : ReplicaID) : Task H Sig → Prop
  | .doVote _ vote => vote.voter = id ∧ vote.cert.objHash = vote.blkHash ∧
      P.verifySig vote.voter vote.cert.objHash vote.cert.sig = true
  | _ => True

variable [DecidableEq H] {P : Primitives H Sig}

namespace Core

variable {c c' : Core H Sig} {R : Rules H Sig}

theorem castVote_valid (hc : c.WellFormed P) (prop : Proposal H) :
    (c.castVote P prop).core.id = c.id ∧ (c.castVote P prop).core.config = c.config ∧
      ∀ t ∈ (c.castVote P prop).tasks, t.voteValid P c.id := by
  obtain ⟨o, _, hcast⟩ := castVote_eq hc prop
  rw [hcast]
  refine ⟨by cases o <;> rfl, by cases o <;> rfl, fun t ht => ?_⟩
  obtain hfinish | ht := List.mem_append.mp ht
  · unfold finishTasks at hfinish
    split at hfinish
    · cases hfinish
    · obtain ⟨q, _, rfl⟩ := List.mem_map.mp hfinish
      trivial
  · obtain rfl | ht := List.mem_cons.mp ht
    · trivial
    · split at ht
      · rw [List.mem_singleton.mp ht]
        exact ⟨rfl, rfl, P.verifySig_sign c.id prop.blk⟩
      · cases ht

/-- A call for a proposal hands out valid votes of the replica only. -/
theorem Ends.valid (hc : c.WellFormed P) {own : Option H} {res : Res H Sig}
    (h : Ends P R c own res) : res.core.id = c.id ∧ res.core.config = c.config ∧
      ∀ t ∈ res.tasks, t.voteValid P c.id := by
  cases h with
  | breach hsteps _ _ _ =>
    have hs := hsteps.move.stable
    exact ⟨hs.id, hs.config, fun _ ht => nomatch ht⟩
  | fault hsteps _ => exact ⟨hsteps.stable.id, hsteps.stable.config, fun _ ht => nomatch ht⟩
  | commit hsteps hto _ _ =>
    have hs := hsteps.move.stable
    have hto := hto.committed.stable
    exact ⟨hto.id.trans hs.id, hto.config.trans hs.config, fun _ ht => nomatch ht⟩
  | @vote u outs extra prop hsteps _ _ hafter =>
    have hs := hsteps.stable
    obtain ⟨hid, hconfig, hvalid⟩ := castVote_valid (hsteps.wellFormed hc) prop
    refine ⟨hid.trans hs.id, hconfig.trans hs.config, fun t ht => ?_⟩
    obtain ht | ht := List.mem_append.mp ht
    · rw [← hs.id]
      exact hvalid t ht
    · obtain ⟨_, rfl⟩ | ⟨_, _, _, _, props, rfl, _⟩ := hafter
      · cases ht
      · obtain rfl | ht := List.mem_cons.mp ht
        · trivial
        obtain rfl | ht := List.mem_cons.mp ht
        · trivial
        · rw [List.mem_singleton.mp ht]
          trivial

theorem onReceiveVote_valid (hc : c.WellFormed P) (vote : Vote H Sig) :
    (c.onReceiveVote vote).core.id = c.id ∧ (c.onReceiveVote vote).core.config = c.config ∧
      ∀ t ∈ (c.onReceiveVote vote).tasks, t.voteValid P c.id := by
  have hcounts {c' : Core H Sig} (hk : c.Counts P vote c') : c'.id = c.id ∧ c'.config = c.config := by
    have hid := congrArg Core.id hk.rest
    have hconfig := congrArg Core.config hk.rest
    exact ⟨hid, hconfig⟩
  obtain h | h | ⟨c', hk, h | h | ⟨_, hqc, outs, h, _⟩⟩ := onReceiveVote_cases hc vote
  · rw [h]
    exact ⟨rfl, rfl, fun _ ht => nomatch ht⟩
  · rw [h]
    exact ⟨rfl, rfl, fun _ ht => nomatch ht⟩
  · rw [h]
    exact ⟨(hcounts hk).1, (hcounts hk).2, fun _ ht => nomatch ht⟩
  · rw [h]
    exact ⟨(hcounts hk).1, (hcounts hk).2, fun _ ht => nomatch ht⟩
  · rw [h]
    refine ⟨(hcounts hk).1, (hcounts hk).2, fun t ht => ?_⟩
    rw [List.mem_singleton.mp ht]
    trivial

theorem onInit_qc {k : Nat} {g : Block H Sig} (hg : (c.onInit k).storage c.b0 = some g) :
    g.qc.objHash = c.b0 := by
  have hstorage : (c.onInit k).storage c.b0 = (c.storage c.b0).map fun b => { b with
      qc := .create { c.config with nmajority := c.config.nreplicas - k } c.b0
      selfQc := some (.create { c.config with nmajority := c.config.nreplicas - k } c.b0)
      qcRef := some c.b0 } := Function.update_self _ _ _
  rw [hstorage] at hg
  obtain ⟨b, _, rfl⟩ := Option.map_eq_some_iff.mp hg
  rfl

theorem start_tallied (P : Primitives H Sig) (id : ReplicaID) (dummy : QuorumCert H Sig)
    {replicas : List NetAddr} (listenAddr : NetAddr) (hwidth : replicas.length ≤ 2 ^ 16) :
    ((Core.new P id dummy).start replicas listenAddr).Tallied P := by
  have h := start_started P id dummy replicas listenAddr
  have hnone {x : H} {b : Block H Sig}
      (hb : ((Core.new P id dummy).start replicas listenAddr).storage x = some b) :
      x = P.genesisHash := by
    by_contra hx
    rw [h.others x hx] at hb
    cases hb
  refine ⟨h.wellFormed, ?_, ?_, ?_, ?_, ?_, Or.inl h.hqc.2⟩
  · rw [h.nreplicas]
    exact hwidth
  · exact fun hb hx => absurd (hnone hb) hx
  · exact fun hb hx => absurd (hnone hb) hx
  · exact fun hb hx => absurd (hnone hb) hx
  · intro x b hb _
    have hb0 := h.b0
    have hx := hnone hb
    rw [← hb0] at hx
    subst hx
    exact Or.inl ((onInit_qc hb).trans hb0)

end Core

namespace Replica

variable {nd nd' : Replica H Sig}

/-- The tallies of the core are right, and so are the votes that it hands out. -/
structure VotesMatch (P : Primitives H Sig) (nd : Replica H Sig) : Prop where
  tallied : nd.core.Tallied P
  registered : nd.core.id < nd.core.config.nreplicas
  valid : ∀ t ∈ nd.tasks, t.voteValid P nd.core.id

/-- `on_propose` is not called for a stored block that has votes. -/
def buildsUnvoted (P : Primitives H Sig) (nd : Replica H Sig) : Event H Sig → Bool
  | .propose _ _ cmds parents extra =>
    let bnew := P.hashBlock (nd.core.proposedData P cmds parents extra)
    decide (bnew = nd.core.b0) || (nd.core.storage bnew).all (·.voted.isEmpty)
  | _ => true

namespace VotesMatch

omit [DecidableEq H] in
/-- Another core takes over with what it has handed out. -/
theorem replaced (h : nd.VotesMatch P) (htallied : nd'.core.Tallied P)
    (hid : nd'.core.id = nd.core.id) (hconfig : nd'.core.config = nd.core.config)
    (hvalid : ∀ t ∈ nd'.tasks, t.voteValid P nd.core.id) : nd'.VotesMatch P := by
  refine ⟨htallied, ?_, ?_⟩
  · rw [hid, hconfig]
    exact h.registered
  · rw [hid]
    exact hvalid

theorem absorb (h : nd.VotesMatch P) {res : Res H Sig} (ord : List H) {rest : List (Task H Sig)}
    (htallied : res.core.Tallied P) (hres : res.core.id = nd.core.id ∧
      res.core.config = nd.core.config ∧ ∀ t ∈ res.tasks, t.voteValid P nd.core.id)
    (hrest : rest ⊆ nd.tasks) : (nd.absorb ord rest res).VotesMatch P := by
  obtain ⟨hid, hconfig, hvalid⟩ := hres
  unfold Replica.absorb
  dsimp only
  split
  · apply h.replaced htallied hid hconfig
    intro t ht
    obtain ht | ht := List.mem_append.mp ht
    · exact hvalid t ht
    · exact h.valid t (hrest ht)
  · exact h.replaced htallied hid hconfig fun _ ht => nomatch ht
  · exact h.replaced htallied hid hconfig fun _ ht => nomatch ht

/-- The handler goes on without a call of the core. -/
theorem runTask (h : nd.VotesMatch P) {ord : List H} (hrun : nd.runTask ord false = some nd') :
    nd'.VotesMatch P := by
  have hpop {t : Task H Sig} {rest : List (Task H Sig)} (htasks : nd.tasks = t :: rest)
      (u : Task H Sig) (hu : u ∈ rest) : u.voteValid P nd.core.id := by
    apply h.valid
    rw [htasks]
    exact List.mem_cons_of_mem t hu
  unfold Replica.runTask at hrun
  split at hrun
  · cases hrun
  · rename_i blk rest htasks
    split at hrun
    · obtain rfl := Option.some.inj hrun
      refine h.replaced h.tallied rfl rfl fun u hu => ?_
      obtain rfl | hu := List.mem_cons.mp hu
      · trivial
      · exact hpop htasks u hu
    · obtain rfl := Option.some.inj hrun
      exact h.replaced h.tallied rfl rfl (hpop htasks)
  · rename_i prop rest htasks
    obtain rfl := Option.some.inj hrun
    exact h.replaced h.tallied rfl rfl (hpop htasks)
  · rename_i prop rest htasks
    obtain rfl := Option.some.inj hrun
    refine h.replaced h.tallied rfl rfl fun u hu => ?_
    obtain rfl | hu := List.mem_cons.mp hu
    · trivial
    · exact hpop htasks u hu
  · rename_i last vote rest htasks
    rw [if_neg Bool.noConfusion] at hrun
    obtain rfl := Option.some.inj hrun
    exact h.replaced h.tallied rfl rfl (hpop htasks)
  · rename_i props rest htasks
    obtain rfl := Option.some.inj hrun
    exact h.replaced h.tallied rfl rfl (hpop htasks)
  · rename_i rest htasks
    obtain rfl := Option.some.inj hrun
    exact h.replaced h.tallied rfl rfl (hpop htasks)

/-- The replica counts its own vote. -/
theorem voteSelf (h : nd.VotesMatch P) {ord : List H} {last : ReplicaID} {vote : Vote H Sig}
    {rest : List (Task H Sig)} (htasks : nd.tasks = .doVote last vote :: rest) :
    (({ nd with log := nd.log ++ [.doVote last vote] } : Replica H Sig).absorb ord rest
      (nd.core.onReceiveVote vote)).VotesMatch P := by
  obtain ⟨hvoter, hobj, hsig⟩ := h.valid (.doVote last vote) (by rw [htasks]; exact List.mem_cons_self)
  have hlog : ({ nd with log := nd.log ++ [.doVote last vote] } : Replica H Sig).VotesMatch P :=
    { h with }
  apply hlog.absorb ord
  · apply h.tallied.onReceiveVote _ hobj hsig
    rw [hvoter]
    exact h.registered
  · exact Core.onReceiveVote_valid h.tallied.wellFormed vote
  · intro t ht
    change t ∈ nd.tasks
    rw [htasks]
    exact List.mem_cons_of_mem _ ht

theorem receiveSlice (h : nd.VotesMatch P) (slice : Slice H) :
    (nd.absorb [] [] (nd.core.onReceiveSlice P slice)).VotesMatch P := by
  have hc := h.tallied.wellFormed
  have hsame := Core.onReceiveSlice_sameBlocks (P := P) nd.core slice
  have hres : (nd.core.onReceiveSlice P slice).core.WellFormed P ∧
      (nd.core.onReceiveSlice P slice).tasks = [] := by
    obtain hs | hs | ⟨_, _, sc, _, hs⟩ := Core.onReceiveSlice_eq (P := P) nd.core slice
    · rw [hs]
      exact ⟨hc, rfl⟩
    · rw [hs]
      exact ⟨hc, rfl⟩
    · rw [hs]
      exact ⟨hc.with_shards sc, rfl⟩
  refine h.absorb [] (h.tallied.of_sameBlocks hsame hres.1) ⟨hsame.id, hsame.config, ?_⟩
    (List.nil_subset _)
  rw [hres.2]
  exact fun _ ht => nomatch ht

theorem propose (h : nd.VotesMatch P) (ord : List H) (cmds : List UInt256) {parents : List H}
    (extra : Bytes) (hpar : parents.all nd.core.delivered = true)
    (hcond : nd.buildsUnvoted P (.propose nd.core.id ord cmds parents extra) = true) :
    (nd.absorb ord nd.tasks (nd.core.onPropose P cmds parents extra)).VotesMatch P := by
  have hc := h.tallied.wellFormed
  have hends := Core.onPropose_ends (R := .any H Sig) hc cmds parents extra rfl
    (fun _ => trivial) (fun _ _ _ => trivial) (fun _ _ _ => trivial) (fun _ _ _ _ => trivial)
  rw [hpar] at hends
  apply h.absorb ord _ ((hends.resolve_left fun h => nomatch h.1).valid hc) (List.Subset.refl _)
  apply h.tallied.onPropose cmds extra hpar
  intro hgen b hb
  simp only [buildsUnvoted, hb, hc.dag.b0, decide_eq_false hgen, Bool.false_or] at hcond
  simpa using hcond

/-- Every event keeps the invariant when no block with votes is built again. -/
theorem handle (h : nd.VotesMatch P) {e : Event H Sig} (hcond : nd.buildsUnvoted P e = true)
    (hstep : nd.handle P e = some nd') : nd'.VotesMatch P := by
  have hc := h.tallied.wellFormed
  cases e with
  | fetch r src data =>
    simp only [Replica.handle, Option.ite_none_right_eq_some, Option.some.injEq] at hstep
    obtain ⟨_, rfl⟩ := hstep
    have hs := (Core.addBlk_grows hc data).1.quiet.stable
    exact h.replaced (h.tallied.addBlk data) hs.id hs.config h.valid
  | deliver r blk =>
    simp only [Replica.handle, Option.ite_none_right_eq_some, Bool.and_eq_true, Option.some.injEq]
      at hstep
    obtain ⟨⟨_, hdel⟩, rfl⟩ := hstep
    obtain ⟨hg, _, htask, hexit⟩ := Core.deliver_grows hc hdel
    have hs := hg.quiet.stable
    refine h.absorb [] (h.tallied.onDeliverBlk ?_ ?_) ⟨hs.id, hs.config, ?_⟩
      (List.nil_subset _)
    · intro b hb
      simp only [deliverable, hb, Bool.and_eq_true, Bool.or_eq_true, decide_eq_true_eq,
        beq_iff_eq, hc.dag.b0] at hdel
      exact hdel.1.1
    · exact hexit .qcBlockNotFetched
    · rw [htask]
      exact fun _ ht => by cases ht
  | receiveProposal r src ord prop =>
    simp only [Replica.handle, Option.ite_none_right_eq_some, Option.some.injEq] at hstep
    obtain ⟨_, rfl⟩ := hstep
    have he := Core.onReceiveProposal_ends_any hc prop
    apply h.absorb ord _ (he.valid hc) (List.nil_subset _)
    exact h.tallied.of_sameBlocks (Core.onReceiveProposal_sameBlocks nd.core prop)
      (he.onward hc).wellFormed
  | receiveVote r ord vote =>
    simp only [Replica.handle, Option.ite_none_right_eq_some, Bool.and_eq_true,
      decide_eq_true_eq, Option.some.injEq] at hstep
    obtain ⟨⟨⟨⟨⟨_, hvoter⟩, hsig⟩, hobj⟩, _⟩, rfl⟩ := hstep
    apply h.absorb ord _ (Core.onReceiveVote_valid hc vote) (List.nil_subset _)
    exact h.tallied.onReceiveVote hvoter hobj hsig
  | receiveSlice r src hash slice =>
    simp only [Replica.handle, Option.ite_none_right_eq_some] at hstep
    obtain ⟨_, hstep⟩ := hstep
    split at hstep
    · obtain rfl := Option.some.inj hstep
      exact h.receiveSlice slice
    · obtain rfl := Option.some.inj hstep
      exact h
  | propose r ord cmds parents extra =>
    simp only [Replica.handle, Option.ite_none_right_eq_some, Bool.and_eq_true, Option.some.injEq]
      at hstep
    obtain ⟨⟨_, hpar⟩, rfl⟩ := hstep
    exact h.propose ord cmds extra hpar hcond
  | asyncQcFinish r blk =>
    simp only [Replica.handle, Option.ite_none_right_eq_some, Option.some.injEq] at hstep
    obtain ⟨_, rfl⟩ := hstep
    exact { h with }
  | runTask r ord toSelf =>
    simp only [Replica.handle] at hstep
    split at hstep
    · cases hstep
    cases toSelf with
    | false => exact h.runTask hstep
    | true =>
      obtain hrun | ⟨last, vote, rest, htasks, rfl⟩ := Replica.runTask_self hstep
      · exact h.runTask hrun
      · exact h.voteSelf htasks

theorem init (P : Primitives H Sig) (dummy : QuorumCert H Sig) {replicas : List NetAddr}
    (listenAddr : NetAddr) {id : ReplicaID} (hid : id < replicas.length)
    (hwidth : replicas.length ≤ 2 ^ 16) :
    (Replica.init P dummy replicas listenAddr id).VotesMatch P := by
  have h := Core.start_started P id dummy replicas listenAddr
  refine ⟨Core.start_tallied P id dummy listenAddr hwidth, ?_, fun _ ht => nomatch ht⟩
  change ((Core.new P id dummy).start replicas listenAddr).id <
    ((Core.new P id dummy).start replicas listenAddr).config.nreplicas
  rw [h.id, h.nreplicas]
  exact hid

end VotesMatch

/-- Votes and certificates stay in step: in every run of a replica that does not build a block again
that has votes, whatever its peers send, the votes for a stored block are the signers of the
certificate of its own, which verifies once it is full. So does `hqc.second`, unless it is for
genesis. -/
theorem votes_match {dummy : QuorumCert H Sig} {replicas : List NetAddr} {listenAddr : NetAddr}
    {id : ReplicaID} (hid : id < replicas.length) (hwidth : replicas.length ≤ 2 ^ 16)
    (h : nd.Runs P dummy replicas listenAddr id fun nd e => nd.buildsUnvoted P e = true) :
    (∀ x b qc, nd.core.storage x = some b → x ≠ P.genesisHash → b.selfQc = some qc →
      qc.objHash = x ∧ (∀ rid, rid ∈ b.voted ↔ ∃ sig, (rid, sig) ∈ qc.signers) ∧
        (nd.core.config.nmajority ≤ b.voted.length → qc.verify P nd.core.config = some true)) ∧
      (nd.core.hqc.2.objHash = P.genesisHash ∨
        nd.core.hqc.2.verify P nd.core.config = some true) := by
  have hi : nd.VotesMatch P :=
    h.invariant (.init P dummy listenAddr hid hwidth) fun _ _ _ h hcond hstep => h.handle hcond hstep
  have hc := hi.tallied
  refine ⟨fun x b qc hb hgen hself => ?_, hc.hqc⟩
  have htallies := hc.tallies hb hgen hself
  have hlen : qc.sigs.length ≤ 2 ^ 16 := by
    rw [htallies.size]
    exact hc.width
  refine ⟨hc.wellFormed.selfQcHash hb hself, fun rid => ?_, ?_⟩
  · rw [htallies.voters rid]
    simp only [QuorumCert.mem_signers hlen]
  · exact htallies.verify hc.width (hc.nodup hb hgen)

end Replica

namespace Concrete

/-- A block that is built on genesis. -/
def rebuiltBlocks : List (BlockData Nat Signature) := [ownBlock 0 (cert [] 0) 7]

/-- Replica 0 builds its block and counts its own vote. -/
def buildBlock : List (Event Nat Signature) :=
  .propose 0 [] [] [0] [7] :: List.replicate 6 (.runTask 0 [] true)

/-- The votes of replicas 1 and 2 for the block. -/
def othersVote : List (Event Nat Signature) :=
  [1, 2].map fun r =>
    .receiveVote 0 [] { voter := r, blkHash := 1, cert := { objHash := 1, sig := (r, 1) } }

/-- What the core of a replica has for the block: its votes and certificate, and `hqc`. -/
def seenVotes (nd : Replica Nat Signature) :
    Option (List ReplicaID × Option (QuorumCert Nat Signature)) × Nat × QuorumCert Nat Signature :=
  ((nd.core.storage 1).map fun b => (b.voted, b.selfQc), nd.core.hqc)

set_option maxRecDepth 100000 in
set_option synthInstance.maxSize 1024 in
theorem vote_run :
    (Transition.runBy (Replica.handle (primitives rebuiltBlocks [[]]))
      (fun nd e => nd.buildsUnvoted (primitives rebuiltBlocks [[]]) e = true)
      (Replica.init (primitives rebuiltBlocks [[]]) noCert [10, 11, 12, 13] 10 0)
      (buildBlock ++ othersVote)).map seenVotes =
      some (some ([2, 1, 0], some (cert [0, 1, 2] 1)), 1, cert [0, 1, 2] 1) := by
  decide +kernel

/-- The block has the votes of three replicas, and so has its certificate. -/
theorem votes_match_built : ∃ nd : Replica Nat Signature,
    nd.core.hqc.2 = cert [0, 1, 2] 1 ∧
      nd.core.hqc.2.verify (primitives rebuiltBlocks [[]]) nd.core.config = some true := by
  obtain ⟨nd, hreach, hseen⟩ := Transition.runBy_map_reaches vote_run
  obtain ⟨_, hhqc⟩ := Prod.mk.inj hseen
  have hcert := congrArg Prod.snd hhqc
  obtain hgen | hverify := (Replica.votes_match (by decide) (by decide) hreach).2
  · rw [hcert] at hgen
    exact absurd hgen (by decide)
  · exact ⟨nd, hcert, hverify⟩

set_option maxRecDepth 100000 in
set_option synthInstance.maxSize 1024 in
/-- Replica 0 builds the same block once more before the others vote. -/
theorem rebuilt_run :
    (Transition.runBy (Replica.handle (primitives rebuiltBlocks [[]])) (fun _ _ => True)
      (Replica.init (primitives rebuiltBlocks [[]]) noCert [10, 11, 12, 13] 10 0)
      (buildBlock ++ buildBlock.take 1 ++ othersVote)).map (fun nd => (nd.core.config, seenVotes nd)) =
      some ({ nreplicas := 4, nmajority := 3 }, some ([2, 1, 0], some (cert [1, 2] 1)), 1,
        cert [1, 2] 1) := by
  decide +kernel

/-- The vote of replica 0 is counted, but it is not in the certificate, which does not verify. -/
theorem votes_match_rebuilt : ∃ nd : Replica Nat Signature,
    (nd.Runs (primitives rebuiltBlocks [[]]) noCert [10, 11, 12, 13] 10 0 fun _ _ => True) ∧
      (∃ b qc, nd.core.storage 1 = some b ∧ b.selfQc = some qc ∧ 0 ∈ b.voted ∧
        ∀ sig, (0, sig) ∉ qc.signers) ∧
      nd.core.hqc.2.objHash ≠ 0 ∧
      nd.core.hqc.2.verify (primitives rebuiltBlocks [[]]) nd.core.config = some false := by
  obtain ⟨nd, hreach, hseen⟩ := Transition.runBy_map_reaches rebuilt_run
  obtain ⟨hconfig, hvotes⟩ := Prod.mk.inj hseen
  obtain ⟨hblk, hhqc⟩ := Prod.mk.inj hvotes
  have hcert := congrArg Prod.snd hhqc
  obtain ⟨b, hb, hvoted⟩ := Option.map_eq_some_iff.mp hblk
  obtain ⟨hv, hself⟩ := Prod.mk.inj hvoted
  refine ⟨nd, hreach, ⟨b, _, hb, hself, ?_, fun sig hmem => ?_⟩, ?_, ?_⟩
  · rw [hv]
    decide
  · have hsigners : (0, sig) ∈ [(1, ((1, 1) : Signature)), (2, (2, 1))] := hmem
    simp at hsigners
  · rw [hcert]
    decide
  · rw [hcert, hconfig]
    decide

end Concrete
end LibHotStuff
