import LibHotStuff.Library.LockedVotes
import LibHotStuff.Proofs.CertificateOrder

namespace LibHotStuff

open Chain

variable {H Sig : Type} [DecidableEq H] {P : Primitives H Sig} {D : Deployment} {R : Rules H Sig}
  {dummy : QuorumCert H Sig} {w w' : Parties H Sig}

/-- `l` is at least as high as the start of a two-chain that ends below `a`. -/
def Primitives.LockAbove (P : Primitives H Sig) (a l : H) : Prop :=
  ∀ c d, P.parent a = some c → P.justify a = c → P.parent c = some d → P.justify c = d →
    P.depth d ≤ P.depth l

/-- A vote against the lock is for a block that extends the block its certificate is for. -/
def Core.Sound (P : Primitives H Sig) (c : Core H Sig) (blk : H) : Prop :=
  c.vheight < c.height blk → c.height c.bLock < c.height (P.justify blk) →
    OnChain P.parent blk (P.justify blk) ∨ OnChain P.parent blk c.bLock

/-- The locks under which a replica has voted. -/
structure Party.Locks (P : Primitives H Sig) (D : Deployment) (w : Parties H Sig)
    (p : Party H Sig) : Prop where
  sorted : p.votes.Pairwise fun v v' => P.LockAbove v'.1 v.2
  current : ∀ v ∈ p.votes, P.LockAbove v.1 p.core.bLock
  backed : ∀ v ∈ p.votes, w.Backed P D v.2
  rule : ∀ v ∈ p.votes, OnChain P.parent v.1 v.2 ∨
    P.depth v.2 < P.depth (P.justify v.1) ∧ OnChain P.parent v.1 (P.justify v.1)

namespace Core

variable {c c' : Core H Sig} {outs log : List (Output H Sig)}

omit [DecidableEq H] in
theorem Executed.decided_depth (h : c.Executed P log) (hc : c.WellFormed P) {x : H}
    (hx : c.decided x = true) : P.depth x ≤ P.depth c.bExec := by
  have hroot := hc.dag.onChain_genesis hc.execDelivered
  rcases (h.decided x).mp hx with rfl | hmem
  · rw [P.depth_genesis]
    exact Nat.zero_le _
  · have hup := up_depth P.parent_genesis hroot
    change up P.parent (P.depth c.bExec) c.bExec = _ at hup
    rw [h.log_eq, List.mem_reverse, mem_path hup] at hmem
    obtain ⟨i, _, hi⟩ := hmem
    exact (OnChain.up_sub P.parent_genesis ⟨i, hi⟩ hroot).2.1

omit [DecidableEq H] in
/-- A block is voted for under a lock above its two-chain. -/
theorem Raised.lockAbove (hc : c.WellFormed P) (hex : c.Executed P log) (ho : c.Ordered P) {blk : H}
    (hd : c.delivered blk = true) (hr : c.Raised P blk) : P.LockAbove blk c.bLock := by
  intro x d hp hj hp' hj'
  have hx := hc.dag.delivered_parent hd hp
  have hdd := hc.dag.delivered_parent hx hp'
  have hlower := depth_parent P.parent_genesis (hc.dag.onChain_genesis hdd) hp'
  change P.depth x = P.depth d + 1 at hlower
  rw [Raised, hj, hj'] at hr
  have hle := ho.1
  rcases hr hx with h | h | h
  · have := hex.decided_depth hc h
    omega
  · have := hex.decided_depth hc h
    omega
  · rwa [hc.dag.height_eq hdd, hc.dag.height_eq hc.lockDelivered] at h

omit [DecidableEq H] in
/-- The voting rule, in terms of the chains. -/
theorem Approves.rule (hc : c.WellFormed P) {blk : H} (h : c.Approves P blk) (hs : c.Sound P blk) :
    OnChain P.parent blk c.bLock ∨
      P.depth c.bLock < P.depth (P.justify blk) ∧ OnChain P.parent blk (P.justify blk) := by
  rcases h.2 with hlive | hon
  · rcases hs h.1 hlive with hext | hon
    · have hd := hc.dag.delivered_of_height (Nat.zero_lt_of_lt hlive)
      rw [hc.dag.height_eq hd, hc.dag.height_eq hc.lockDelivered] at hlive
      exact Or.inr ⟨hlive, hext⟩
    · exact Or.inl hon
  · exact Or.inl hon

end Core

namespace Party

variable {p p' : Party H Sig}

/-- The lock only goes up. -/
theorem Act.lock_le (h : p.Act P D R w p') (hp : p.core.WellFormed P) :
    P.depth p.core.bLock ≤ P.depth p'.core.bLock := by
  rcases h.marks_cases hp with ⟨_, hlock, _⟩ | ⟨nblk, c', outs, _, hprep, rfl⟩ |
    ⟨nblk, b, res, done, hto, _, rfl⟩ | ⟨blk, qc, _, _, rfl⟩
  · rw [hlock]
  · change P.depth p.core.bLock ≤ P.depth c'.bLock
    rcases hprep.bLock with heq | ⟨_, hlt, heq⟩
    · rw [heq]
    · rw [hp.dag.height_eq hp.lockDelivered] at hlt
      have := hp.dag.height_le (P.justify (P.justify nblk))
      rw [heq]
      omega
  · change P.depth p.core.bLock ≤ P.depth res.core.bLock
    rw [hto.committed.same.bLock]
  · exact Nat.le_refl _

end Party

omit [DecidableEq H] in
/-- A vote is cast under a lock above the two-chain of each lower block voted for. -/
theorem Party.Locks.above {p : Party H Sig} (h : p.Locks P D w) (hb : p.Ballots P) {v v' : H × H}
    (hv : v ∈ p.votes) (hv' : v' ∈ p.votes) (hlt : P.depth v.1 < P.depth v'.1) :
    P.LockAbove v.1 v'.2 := by
  let S (v v' : H × H) : Prop := P.depth v'.1 < P.depth v.1 ∧ P.LockAbove v'.1 v.2 ∨
    P.depth v.1 < P.depth v'.1 ∧ P.LockAbove v.1 v'.2
  have hpair : p.votes.Pairwise S := (hb.sorted.and h.sorted).imp Or.inl
  have : Std.Symm S := ⟨fun _ _ hs => hs.symm⟩
  have hne : v ≠ v' := by
    rintro rfl
    omega
  rcases hpair.forall hv hv' hne with ⟨hgt, _⟩ | ⟨_, hlock⟩
  · omega
  · exact hlock

/-- Under the rules, a replica votes only after `update` for the block, and soundly. -/
def Rules.SoundVotes (P : Primitives H Sig) (D : Deployment) (dummy : QuorumCert H Sig)
    (R : Rules H Sig) : Prop :=
  ∀ (w : Parties H Sig) r blk s, w.Reached P D R dummy → D.Correct r →
    (w r).core.delivered blk = true → R.vote (w r).core blk s →
      (w r).core.Raised P blk ∧ (w r).core.Sound P blk

namespace Parties

theorem Reached.locks (hR : R.SoundVotes P D dummy) (h : Reached P D R dummy w) {r : ReplicaID}
    (hr : D.Correct r) : (w r).Locks P D w := by
  refine h.invariant (J := fun w _ p => p.Locks P D w) (fun r _ => ?_) (fun _ _ _ _ hle hp => ?_)
    (fun w r p hreach hp hr hs ha hle => ?_) r hr
  · exact ⟨List.Pairwise.nil, by simp [init], by simp [init], by simp [init]⟩
  · exact ⟨hp.sorted, hp.current, fun v hv => (hp.backed v hv).mono hle, hp.rule⟩
  · have hv := hreach.valid hr
    have hc := hv.wellFormed
    have hl := hp r hr
    have hlock := ha.lock_le hc
    rcases ha.votes_cases hc with ⟨heq, _⟩ | ⟨blk, s, happ, hrule, _, rfl⟩
    · refine ⟨by rw [heq]; exact hl.sorted, fun v hmem c d h₁ h₂ h₃ h₄ => ?_, fun v hmem => ?_, ?_⟩
      · rw [heq] at hmem
        exact (hl.current v hmem c d h₁ h₂ h₃ h₄).trans hlock
      · rw [heq] at hmem
        exact (hl.backed v hmem).mono hle
      · rw [heq]
        exact hl.rule
    · have hd := happ.delivered hc.dag
      obtain ⟨hraised, hsound⟩ := hR _ _ _ _ hreach hr hd hrule
      refine ⟨List.pairwise_cons.mpr ⟨hl.current, hl.sorted⟩, fun v hmem => ?_, fun v hmem => ?_,
        fun v hmem => ?_⟩
      · rcases List.mem_cons.mp hmem with rfl | hmem
        · exact hraised.lockAbove hc (hv.executed hs) (hreach.ordered hr) hd
        · exact hl.current v hmem
      · rcases List.mem_cons.mp hmem with rfl | hmem
        · exact ((hreach.justified hr).lock).mono hle
        · exact (hl.backed v hmem).mono hle
      · rcases List.mem_cons.mp hmem with rfl | hmem
        · exact happ.rule hc hsound
        · exact hl.rule v hmem

/-- A block with a quorum has one of voters that were not locked on it. -/
theorem Reached.quorum_unlocked (hR : R.SoundVotes P D dummy) (h : Reached P D R dummy w) {x : H}
    (hx : w.Quorum D x) : ∃ Q : Finset ReplicaID, Q ⊆ Finset.range D.n ∧
      D.n - (D.n - 1) / 3 ≤ Q.card ∧ ∀ r ∈ Q, D.Correct r → ∃ l, (x, l) ∈ (w r).votes ∧ l ≠ x := by
  induction h generalizing x with
  | refl =>
    obtain ⟨Q, hQ, hcard, hall⟩ := hx
    obtain ⟨r, hr, _, hc⟩ := quorum_inter hQ hQ hcard hcard
    obtain ⟨l, hl⟩ := hall r hr hc
    cases hl
  | @tail w w' hreach hstep ih =>
    have hreach' : Reached P D R dummy w := hreach
    have hle := hstep.le fun r hr => hreach'.valid hr
    by_cases hold : w.Quorum D x
    · obtain ⟨Q, hQ, hcard, hall⟩ := ih hold
      refine ⟨Q, hQ, hcard, fun r hr hc => ?_⟩
      obtain ⟨l, hl, hne⟩ := hall r hr hc
      exact ⟨l, (hle r).votes.subset hl, hne⟩
    -- the quorum is new, so nobody was locked on `x` before
    obtain ⟨Q, hQ, hcard, hall⟩ := hx
    refine ⟨Q, hQ, hcard, fun r hr hc => ?_⟩
    have hbacked {l : H} (hpos : 0 < P.depth x) (hl : w.Backed P D l) : l ≠ x := by
      rintro rfl
      rcases hl with rfl | hl
      · rw [P.depth_genesis] at hpos
        omega
      · exact hold hl
    obtain ⟨l, hl⟩ := hall r hr hc
    have hreach'' : Reached P D R dummy w' := .tail hreach hstep
    have hlow := (hreach''.ballots hc).low _ hl
    refine ⟨l, hl, hbacked hlow.1 ?_⟩
    cases hstep with
    | @act r' p hr' _ ha =>
      by_cases hrr : r = r'
      · subst hrr
        rw [Function.update_self] at hl
        rcases ha.votes_cases (hreach'.valid hr').wellFormed with ⟨heq, _⟩ | ⟨blk, s, _, _, _, rfl⟩
        · rw [heq] at hl
          exact (hreach'.locks hR hc).backed _ hl
        · rcases List.mem_cons.mp hl with heq | hl
          · rw [(Prod.mk.inj heq).2]
            exact (hreach'.justified hr').lock
          · exact (hreach'.locks hR hc).backed _ hl
      · rw [Function.update_of_ne hrr] at hl
        exact (hreach'.locks hR hc).backed _ hl

/-- The votes of the correct replicas, under sound rules, are votes under locks. -/
noncomputable def Reached.lockedVotes (hR : R.SoundVotes P D dummy) (h : Reached P D R dummy w) :
    LockedVotes H ReplicaID where
  parent := P.parent
  genesis := P.genesisHash
  justify := P.justify
  Voted r b l := D.Correct r ∧ (b, l) ∈ (w r).votes
  Certified b := w.Quorum D b
  genesis_parent := P.parent_genesis
  rooted := fun ⟨hr, hl⟩ =>
    (h.valid hr).wellFormed.dag.onChain_genesis ((h.ballots hr).delivered _ hl)
  intersect := fun ⟨A, hA, cA, hva⟩ hb => by
    obtain ⟨B, hB, cB, hvb⟩ := h.quorum_unlocked hR hb
    obtain ⟨r, hrA, hrB, hr⟩ := quorum_inter hA hB cA cB
    obtain ⟨l, hl⟩ := hva r hrA hr
    obtain ⟨l', hl', hne⟩ := hvb r hrB hr
    exact ⟨r, l, l', ⟨hr, hl⟩, ⟨hr, hl'⟩, hne⟩
  unique := fun ⟨hr, hl⟩ ⟨_, hl'⟩ hd => (h.ballots hr).unique ⟨_, hl⟩ ⟨_, hl'⟩ hd
  locked := fun ⟨hr, hl⟩ ⟨_, hl'⟩ hlt h₁ h₂ h₃ h₄ =>
    (h.locks hR hr).above (h.ballots hr) hl hl' hlt _ _ h₁ h₂ h₃ h₄
  rule := fun ⟨hr, hl⟩ => (h.locks hR hr).rule _ hl
  lock_certified := fun ⟨hr, hl⟩ => ((h.locks hR hr).backed _ hl).symm
  justified := fun ⟨hr, hl⟩ =>
    ((h.justified hr).delivered _ ((h.ballots hr).delivered _ hl)).symm
  justify_lower := fun hb => h.justify_lower hb

omit [DecidableEq H] in
/-- A block that the next two of a three-chain extend, the last of them with a quorum. -/
def Head (P : Primitives H Sig) (D : Deployment) (w : Parties H Sig) (b : H) : Prop :=
  b = P.genesisHash ∨ ∃ b' b'', P.parent b' = some b ∧ P.justify b' = b ∧ P.parent b'' = some b' ∧
    P.justify b'' = b' ∧ w.Quorum D b''

omit [DecidableEq H] in
theorem Head.mono (hle : ∀ r, (w r).Le (w' r)) {b : H} (h : w.Head P D b) : w'.Head P D b :=
  h.imp_right fun ⟨b', b'', h₁, h₂, h₃, h₄, hq⟩ => ⟨b', b'', h₁, h₂, h₃, h₄, hq.mono hle⟩

omit [DecidableEq H] in
theorem Head.of_decides {c : Core H Sig} (hj : c.Justified P D w) {nblk b : H}
    (h : c.Decides P nblk b) : w.Head P D b := by
  obtain ⟨b₁, b₂, hb₂, hp₂, hj₂, hp₁, hj₁⟩ := h.completes
  have hback := hj.delivered _ h.nblkDelivered
  rw [hb₂] at hback
  refine Or.inr ⟨b₁, b₂, hp₁, hj₁, hp₂, hj₂, hback.resolve_left ?_⟩
  rintro rfl
  simp at hp₂

/-- Two blocks that may be committed lie on one chain. -/
theorem Reached.head_comparable (hR : R.SoundVotes P D dummy) (h : Reached P D R dummy w) {a b : H}
    (ha : w.Head P D a) (hb : w.Head P D b) (hra : OnChain P.parent a P.genesisHash)
    (hrb : OnChain P.parent b P.genesisHash) : OnChain P.parent a b ∨ OnChain P.parent b a := by
  rcases ha with rfl | ha
  · exact Or.inr hrb
  rcases hb with rfl | hb
  · exact Or.inl hra
  have ha' : (h.lockedVotes hR).ThreeChain a := ha
  exact ha'.comparable hb

/-- What a replica has executed is on the chain of a block that may be committed. -/
theorem Reached.executed_head (h : Reached P D R dummy w) {r : ReplicaID} (hr : D.Correct r) :
    ∃ b, w.Head P D b ∧ OnChain P.parent b P.genesisHash ∧
      consensusLog (w r).outs <+: (path P.parent (P.depth b) b).reverse ∧
      ((w r).stuck = false → b = (w r).core.bExec) := by
  refine h.invariant (J := fun w _ p => ∃ b, w.Head P D b ∧ OnChain P.parent b P.genesisHash ∧
    consensusLog p.outs <+: (path P.parent (P.depth b) b).reverse ∧
      (p.stuck = false → b = p.core.bExec)) (fun r hr => ?_)
    (fun _ _ _ _ hle ⟨b, hb, hrest⟩ => ⟨b, hb.mono hle, hrest⟩)
    (fun w r p hreach hp hr hs ha hle => ?_) r hr
  · have hstart := Core.start_started P r dummy D.replicas (D.listenAddr r)
    have hexec : (init P D dummy r).core.bExec = P.genesisHash := hstart.bExec
    exact ⟨P.genesisHash, Or.inl rfl, OnChain.refl _, List.nil_prefix, fun _ => hexec.symm⟩
  have hv := hreach.valid hr
  have hc := hv.wellFormed
  have hv' := ha.valid hs hv
  obtain ⟨b, hb, _, _, hexec⟩ := hp r hr
  -- a replica that is not stuck has executed the chain of `b_exec`
  have running (hs' : p.stuck = false) (hhead : w.Head P D p.core.bExec) :
      ∃ b, Head P D (Function.update w r p) b ∧ OnChain P.parent b P.genesisHash ∧
        consensusLog p.outs <+: (path P.parent (P.depth b) b).reverse ∧
        (p.stuck = false → b = p.core.bExec) := by
    refine ⟨p.core.bExec, hhead.mono hle,
      hv'.wellFormed.dag.onChain_genesis hv'.wellFormed.execDelivered, ?_, fun _ => rfl⟩
    rw [(hv'.executed hs').log_eq]
  rw [hexec hs] at hb
  rcases Bool.eq_false_or_eq_true p.stuck with hst | hst
  · cases ha with
    | @cut nblk b' res done f hto _ _ =>
      obtain ⟨hdepth, _, _⟩ := hto.queue hc
      have hroot := hc.dag.onChain_genesis (hto.toDecides.delivered hc)
      refine ⟨b', (Head.of_decides (hreach.justified hr) hto.toDecides).mono hle, hroot, ?_,
        fun h => by cases h⟩
      change consensusLog ((w r).outs ++ res.outs) <+: _
      rw [consensusLog_append, (hv.executed hs).log_eq, hto.committed.log, hdepth,
        path_add hto.onExec, List.reverse_append]
      exact (List.prefix_append_right_inj _).mpr hto.committed.queueDone
    | _ => exact absurd (hs.symm.trans hst) (by simp)
  · refine running hst ?_
    rcases ha.marks_cases hc with ⟨_, _, he⟩ | ⟨nblk, c', outs, _, hprep, rfl⟩ |
      ⟨nblk, b', res, done, hto, _, rfl⟩ | ⟨blk, qc, _, _, rfl⟩
    · rwa [he]
    · have he : c'.bExec = (w r).core.bExec := by
        have hx := congrArg Core.bExec hprep.rest
        exact hx
      rwa [he]
    · exact .of_decides (hreach.justified hr) hto.toDecides
    · exact hb

/-- What two replicas have executed is the same as far as it goes. -/
theorem Reached.agreement (hR : R.SoundVotes P D dummy) (h : Reached P D R dummy w) {i j : ReplicaID}
    (hi : D.Correct i) (hj : D.Correct j) : consensusLog (w i).outs <+: consensusLog (w j).outs ∨
      consensusLog (w j).outs <+: consensusLog (w i).outs := by
  obtain ⟨a, ha, hra, hpa, _⟩ := h.executed_head hi
  obtain ⟨b, hb, hrb, hpb, _⟩ := h.executed_head hj
  rcases h.head_comparable hR ha hb hra hrb with hab | hba
  · exact List.prefix_or_prefix_of_prefix hpa (hpb.trans (hab.path_prefix P.parent_genesis hra))
  · exact List.prefix_or_prefix_of_prefix (hpa.trans (hba.path_prefix P.parent_genesis hrb)) hpb

end Parties

section Condition

namespace Core

variable {c c' : Core H Sig} {blk : H}

/-- The voting rule runs into no block that it approves for the height of its certificate alone:
a block above `vheight` whose certificate is above the lock extends the certified block or the
lock. -/
def soundOpinion (c : Core H Sig) (blk : H) : Bool :=
  decide (c.height blk ≤ c.vheight) ||
    (c.qcRef blk).all fun q => decide (c.height q ≤ c.height c.bLock) ||
      c.checkAncestry q blk || c.checkAncestry c.bLock blk

theorem soundOpinion_shards (c : Core H Sig) (sc : ShardsContainer H) (blk : H) :
    ({ c with sc := sc } : Core H Sig).soundOpinion blk = c.soundOpinion blk := by
  have hs : ({ c with sc := sc } : Core H Sig).storage = c.storage := rfl
  have hw := walkDown_congr hs
  have hca (a b : H) : ({ c with sc := sc } : Core H Sig).checkAncestry a b =
      c.checkAncestry a b := by
    rw [checkAncestry, checkAncestry, hw]
    rfl
  unfold soundOpinion
  simp only [hca]
  rfl

theorem sound_of_soundOpinion (hc : c.WellFormed P) (h : c.soundOpinion blk = true) :
    c.Sound P blk := by
  intro hv hlive
  have hd := hc.dag.delivered_of_height (Nat.zero_lt_of_lt hv)
  have hq := hc.dag.delivered_of_height (Nat.zero_lt_of_lt hlive)
  simp only [soundOpinion, hc.dag.qcRef_eq hd, Option.all_some, Bool.or_eq_true, decide_eq_true_eq,
    hc.dag.checkAncestry_iff hq hd, hc.dag.checkAncestry_iff hc.lockDelivered hd] at h
  rcases h with h | (h | h) | h
  · omega
  · omega
  · exact Or.inl h
  · exact Or.inr h

end Core

variable [DecidableEq Sig]

/-- In this step the voting rule meets a sound case. -/
def Sys.votesSoundly (P : Primitives H Sig) (s : Sys H Sig) (e : Event H Sig) : Bool :=
  match e.call? with
  | some (.onReceiveProposal prop) =>
    (((s.node e.at_).core.onReceiveSlice P prop.slice).core.update P prop.blk).core.soundOpinion
      prop.blk
  | some (.onPropose cmds parents extra) =>
    ((s.node e.at_).core.beforeOwnVote P cmds parents extra).soundOpinion
      (P.hashBlock ((s.node e.at_).core.proposedData P cmds parents extra))
  | _ => true

/-- The rules of a run in which the voting rule meets sound cases only. -/
def Rules.sound (P : Primitives H Sig) : Rules H Sig :=
  { Rules.any H Sig with vote := fun c blk _ => c.Raised P blk ∧ c.soundOpinion blk = true }

omit [DecidableEq Sig] in
theorem Rules.sound_soundVotes : (Rules.sound P).SoundVotes P D dummy :=
  fun _ _ _ _ h hr _ hv => ⟨hv.1, Core.sound_of_soundOpinion (h.valid hr).wellFormed hv.2⟩

namespace Sys

variable {s : Sys H Sig}

omit [DecidableEq Sig] in
theorem votesSoundly_follows {e : Event H Sig} (h : s.votesSoundly P e = true) {i : Call H Sig}
    (hi : e.call? = some i) : (s.node e.at_).core.Follows P (.sound P) i := by
  unfold votesSoundly at h
  rw [hi] at h
  cases i with
  | onReceiveProposal prop => exact ⟨fun _ => trivial, fun _ _ _ => trivial, fun hr => ⟨hr, h⟩⟩
  | onReceiveSlice s => exact trivial
  | onPropose cmds parents extra =>
    rintro bnew rfl
    refine ⟨trivial, fun _ _ _ => trivial, fun _ _ _ => trivial, fun sc _ _ hr => ⟨hr, ?_⟩⟩
    rw [Core.soundOpinion_shards]
    exact h
  | _ => exact trivial

/-- Agreement: as long as no correct replica runs the voting rule on a block that neither extends
its lock nor the block that its certificate is for, the blocks that two correct replicas have
given to `do_consensus` are the same as far as they go. -/
theorem consensus_agreement (h : s.ReachableBy P D dummy fun s e => s.votesSoundly P e = true)
    {i j : ReplicaID} (hi : D.Correct i) (hj : D.Correct j) :
    consensusLog (s.node i).log <+: consensusLog (s.node j).log ∨
      consensusLog (s.node j).log <+: consensusLog (s.node i).log := by
  obtain ⟨w, hsim⟩ := ReachableBy.refined (R := .sound P) h
    fun s e _ _ _ _ hc _ hi _ => votesSoundly_follows hc hi
  rw [(hsim.node i hi).consensusLog_eq, (hsim.node j hj).consensusLog_eq]
  exact hsim.reached.agreement Rules.sound_soundVotes hi hj

end Sys

end Condition

namespace Concrete

set_option maxRecDepth 100000 in
theorem agreement_run :
    (Transition.runBy (Sys.step (primitives chainBlocks []) fourReplicas)
      (fun s e => s.votesSoundly (primitives chainBlocks []) e = true)
      (Sys.init (primitives chainBlocks []) fourReplicas noCert) chainRun).map
        (fun s => (consensusLog (s.node 0).log, consensusLog (s.node 2).log)) =
      some ([1], [1, 2]) := by
  decide +kernel

theorem consensus_agreement_chain : ∃ s : Sys Nat Signature,
    consensusLog (s.node 0).log = [1] ∧ consensusLog (s.node 2).log = [1, 2] ∧
      (consensusLog (s.node 0).log <+: consensusLog (s.node 2).log ∨
        consensusLog (s.node 2).log <+: consensusLog (s.node 0).log) := by
  obtain ⟨s, hreach, hlogs⟩ := Transition.runBy_map_reaches agreement_run
  obtain ⟨h₀, h₂⟩ := Prod.mk.inj hlogs
  exact ⟨s, h₀, h₂, Sys.consensus_agreement hreach (by decide) (by decide)⟩

/-- Blocks 1 to 3 are a three-chain on block 1. Blocks 4 to 6 fork off below them, and block 7
extends the fork, with the certificate of block 3. -/
def forkBlocks : List (BlockData Nat Signature) :=
  [emptyBlock 0 (cert [] 0) 0, emptyBlock 1 (cert [0, 1, 3] 1) 0, emptyBlock 2 (cert [0, 1, 3] 2) 0,
    emptyBlock 0 (cert [] 0) 1, emptyBlock 4 (cert [] 0) 1, emptyBlock 5 (cert [] 0) 1,
    emptyBlock 6 (cert [0, 1, 3] 3) 0, emptyBlock 7 (cert [0, 1, 3] 7) 0,
    emptyBlock 8 (cert [0, 1, 3] 8) 0, emptyBlock 9 (cert [0, 1, 3] 9) 0]

/-- Replicas 0 and 1 vote for blocks 1 to 3, commit block 1, and then vote for blocks 7 to 9. -/
def forkRun : List (Event Nat Signature) :=
  voteAll forkBlocks [1, 2, 3] ++
    [4, 5, 6].flatMap (fun h => [0, 1].flatMap fun r => adopt forkBlocks 3 r h) ++
    voteAll forkBlocks [7, 8, 9] ++ (List.range' 1 10).flatMap (adopt forkBlocks 3 2) ++
    offer forkBlocks 2 10

set_option maxRecDepth 100000 in
theorem fork_run :
    (Transition.runBy (Sys.step (primitives forkBlocks []) fourReplicas) (fun _ _ => True)
      (Sys.init (primitives forkBlocks []) fourReplicas noCert) forkRun).map
        (fun s => (consensusLog (s.node 0).log, consensusLog (s.node 2).log)) =
      some ([1], [4, 5, 6, 7]) := by
  decide +kernel

/-- With one faulty replica of four, two correct ones commit different first blocks. -/
theorem consensus_fork : ∃ s : Sys Nat Signature,
    s.Reachable (primitives forkBlocks []) fourReplicas noCert ∧
      fourReplicas.Correct 0 ∧ fourReplicas.Correct 2 ∧
      ¬ (consensusLog (s.node 0).log <+: consensusLog (s.node 2).log ∨
        consensusLog (s.node 2).log <+: consensusLog (s.node 0).log) := by
  obtain ⟨s, hreach, hlogs⟩ := Transition.runBy_map_reaches fork_run
  obtain ⟨h₀, h₂⟩ := Prod.mk.inj hlogs
  refine ⟨s, hreach, by decide, by decide, ?_⟩
  rw [h₀, h₂]
  decide

end Concrete
end LibHotStuff
