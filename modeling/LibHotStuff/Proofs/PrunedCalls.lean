import LibHotStuff.Proofs.FailedProposals
import LibHotStuff.Proofs.PrunedUpdate
import LibHotStuff.Proofs.Release

/-! Calls of a core of which blocks have been pruned, beside the same calls without pruning. -/

namespace LibHotStuff

open Chain

variable {H Sig : Type} [DecidableEq H] {P : Primitives H Sig}

namespace Core

variable {c p u p' u' : Core H Sig} {h nblk : H} {b b' : Block H Sig}

theorem commit_bLock (c : Core H Sig) (blk : H) : (c.commit blk).core.bLock = c.bLock := by
  unfold commit
  split
  · rfl
  · split
    · rfl
    · rename_i queue _ _ _
      obtain ⟨_, hcom⟩ := commitAll_committed c queue.reverse
      refine Res.bind_core (R := fun c c' => c'.bLock = c.bLock) ?_ hcom.same.bLock fun _ => rfl
      exact fun _ _ _ h h' => h'.trans h

omit [DecidableEq H] in
theorem lock_bLock (c : Core H Sig) (x : H) :
    (c.lock x).bLock = if c.height c.bLock < c.height x then x else c.bLock := by
  unfold lock
  split <;> rfl

theorem updateLock_bLock (c : Core H Sig) (blk2 : H) (hexit : (c.updateLock P blk2).exit = none) :
    (c.updateLock P blk2).core.bLock =
      match c.qcRef blk2 with
      | none => c.bLock
      | some blk1 => if c.decided blk1 then c.bLock else (c.lock blk1).bLock := by
  unfold updateLock at hexit ⊢
  cases hq : c.qcRef blk2 with
  | none => rfl
  | some blk1 =>
    simp only [hq] at hexit ⊢
    split
    · rfl
    rename_i hdec
    rw [if_neg hdec] at hexit
    cases hstart : (c.startDecode P blk1).exit with
    | some f =>
      rw [Res.bind_some hstart, hstart] at hexit
      cases hexit
    | none =>
      obtain ⟨futures, hframe⟩ := startDecode_frame (P := P) c blk1
      rw [Res.bind_none hstart, hframe]
      have hlock : (({ c with futures := futures } : Core H Sig).lock blk1).bLock =
          (c.lock blk1).bLock := by
        rw [lock_bLock, lock_bLock]
        rfl
      dsimp only
      generalize ({ c with futures := futures } : Core H Sig).lock blk1 = c₁ at hlock
      repeat' split
      all_goals first | exact hlock | exact (commit_bLock _ _).trans hlock

theorem update_bLock (c : Core H Sig) (nblk : H) (hexit : (c.update P nblk).exit = none) :
    (c.update P nblk).core.bLock = c.lockAfter nblk := by
  unfold update at hexit ⊢
  unfold lockAfter qcRef
  cases hn : c.storage nblk with
  | none => rfl
  | some n =>
    simp only [hn, Option.bind_some] at hexit ⊢
    cases hq : n.qcRef with
    | none => rfl
    | some blk2 =>
      simp only [hq] at hexit ⊢
      split
      · rfl
      rename_i hdec
      rw [if_neg hdec] at hexit
      have hnone : (c.updateHqc blk2 n.qc).exit = none := by
        unfold updateHqc
        split <;> rfl
      obtain ⟨hqc, hframe⟩ := updateHqc_frame c blk2 n.qc
      rw [Res.bind_none hnone, hframe] at hexit ⊢
      refine (updateLock_bLock _ blk2 hexit).trans ?_
      simp only [lock_bLock]
      rfl

/-- `update` does not return when the walk does not end at `b_exec`. -/
theorem update_of_breaches (hbr : c.breaches nblk = true) : (c.update P nblk).exit ≠ none := by
  obtain ⟨e, he, hne⟩ := (Option.any_eq_true _ _).mp hbr
  have hne := of_decide_eq_true hne
  unfold commitWalk at he
  cases htarget : c.commitTarget nblk with
  | none => simp [htarget] at he
  | some blk =>
    cases hwalk : c.walkDown (c.height c.bExec) (c.height blk + 1) blk with
    | error f => simp [htarget, hwalk] at he
    | ok qe =>
      obtain ⟨queue, e'⟩ := qe
      simp only [htarget, hwalk, Option.some.injEq] at he
      subst he
      have hcommit (c' : Core H Sig) (hst : c'.storage = c.storage) (hexec : c'.bExec = c.bExec) :
          c'.commit blk = .fail c' (.throw .safetyBreached) := by
        have hheight (x : H) : c'.height x = c.height x := by rw [height, height, hst]
        rw [commit, hheight, hheight, hexec, walkDown_congr hst, hwalk]
        simp only [if_pos hne]
      unfold commitTarget at htarget
      split at htarget
      · cases htarget
      rename_i blk2 hq
      split at htarget
      · cases htarget
      rename_i blk1 hq₂
      split at htarget
      · cases htarget
      rename_i blk' hq₁
      rw [Option.ite_none_right_eq_some] at htarget
      obtain ⟨⟨hund, hp₂, hp₁⟩, hblk⟩ := htarget
      obtain rfl := Option.some.inj hblk
      rw [Bool.or_eq_false_iff, Bool.or_eq_false_iff] at hund
      obtain ⟨⟨hd₂, hd₁⟩, hd⟩ := hund
      obtain ⟨n, hn, hnq⟩ := Option.bind_eq_some_iff.mp hq
      have hexit : (c.updateHqc blk2 n.qc).exit = none := by
        unfold updateHqc
        split <;> rfl
      obtain ⟨hqc, hframe⟩ := updateHqc_frame c blk2 n.qc
      unfold update
      simp only [hn, hnq, hd₂, Bool.false_eq_true, if_false]
      rw [Res.bind_none hexit, hframe]
      have hq₂' : ({ c with hqc := hqc } : Core H Sig).qcRef blk2 = some blk1 := hq₂
      have hd₁' : ({ c with hqc := hqc } : Core H Sig).decided blk1 = false := hd₁
      unfold updateLock
      simp only [hq₂', hd₁', Bool.false_eq_true, if_false]
      cases hstart : (({ c with hqc := hqc } : Core H Sig).startDecode P blk1).exit with
      | some f =>
        rw [Res.bind_some hstart, hstart]
        exact Option.some_ne_none f
      | none =>
        obtain ⟨futures, hfutures⟩ := startDecode_frame (P := P) { c with hqc := hqc } blk1
        rw [Res.bind_none hstart, hfutures]
        obtain ⟨hst, hexec⟩ := lock_frame { c with hqc := hqc, futures := futures } blk1
        have hc₁ := hcommit _ hst hexec
        generalize ({ c with hqc := hqc, futures := futures } : Core H Sig).lock blk1 = c₁ at *
        change c₁.storage = c.storage at hst
        have hq₁' : c₁.qcRef blk1 = some blk' := by rw [qcRef, hst]; exact hq₁
        have hd' : c₁.decided blk' = false := by rw [decided, hst]; exact hd
        have hp₂' : c₁.parent0 blk2 = some blk1 := by rw [parent0, hst]; exact hp₂
        have hp₁' : c₁.parent0 blk1 = some blk' := by rw [parent0, hst]; exact hp₁
        simp only [hq₁', hd', hp₂', hp₁', ne_eq, not_true_eq_false, Bool.false_eq_true, if_false, hc₁]
        exact Option.some_ne_none _

/-- `update` for a block and the vote after it go well. -/
def handleRead (p u : Core H Sig) (nblk : H) : Bool :=
  updateRead p u nblk && (u.breaches nblk || voteRead p u (u.lockAfter nblk) nblk)

/-- The shards do not count. -/
theorem handleRead_shards (p u : Core H Sig) (sc sc' : ShardsContainer H) :
    handleRead ({ p with sc := sc } : Core H Sig) { u with sc := sc' } = handleRead p u := by
  have hupdate : updateRead ({ p with sc := sc } : Core H Sig) { u with sc := sc' } =
      updateRead p u := updateRead_congr rfl rfl rfl
  have hvote : voteRead ({ p with sc := sc } : Core H Sig) { u with sc := sc' } = voteRead p u :=
    voteRead_congr (.of_storage rfl rfl) (.of_storage rfl rfl) rfl
  have hbreaches (x : H) : ({ u with sc := sc' } : Core H Sig).breaches x = u.breaches x := by
    have hst : ({ u with sc := sc' } : Core H Sig).storage = u.storage := rfl
    rw [breaches, breaches, commitWalk_congr hst rfl]
  have hlock (x : H) : ({ u with sc := sc' } : Core H Sig).lockAfter x = u.lockAfter x := by
    unfold lockAfter
    simp only [lock_bLock]
    rfl
  funext x
  rw [handleRead, handleRead, hupdate, hvote, hbreaches, hlock]

theorem onReceiveSlice_frame (c : Core H Sig) (s : Slice H) :
    ∃ sc, (c.onReceiveSlice P s).core = { c with sc := sc } := by
  unfold onReceiveSlice
  split
  · split
    · exact ⟨c.sc, rfl⟩
    · exact ⟨_, rfl⟩
  · exact ⟨c.sc, rfl⟩

namespace Tracks

/-- `update`, and that the vote goes well after it. -/
theorem handle (t : p.Tracks u) (hu : u.WellFormed P) (hd : p.delivered nblk = true)
    (h : handleRead p u nblk = true) :
    Alike (p.update P nblk) (u.update P nblk) ∧ ((u.update P nblk).exit = none →
      (p.update P nblk).core.delivered nblk = true ∧
        voteRead (p.update P nblk).core (u.update P nblk).core (u.update P nblk).core.bLock nblk =
          true) := by
  rw [handleRead, Bool.and_eq_true, Bool.or_eq_true] at h
  obtain ⟨hupdate, hvote⟩ := h
  refine ⟨t.update hu.dag hd hupdate, fun hexit => ?_⟩
  have hp := (update_sameBlocks (P := P) hd).sameDag
  obtain ⟨hsame, hvheight, _⟩ := update_same hu (t.delivered hd)
  refine ⟨by rw [hp.delivered, hd], ?_⟩
  rw [voteRead_congr hp hsame hvheight, update_bLock u nblk hexit]
  exact hvote.resolve_left fun hbr => update_of_breaches hbr hexit

/-- A proposal of another replica. -/
theorem onReceiveProposal (t : p.Tracks u) (hu : u.WellFormed P) {prop : Proposal H}
    (hid : prop.proposer ≠ u.id) (hd : p.delivered prop.blk = true)
    (h : handleRead p u prop.blk = true) :
    Alike (p.onReceiveProposal P prop) (u.onReceiveProposal P prop) := by
  have hslice := t.onReceiveSlice (P := P) prop.slice
  obtain ⟨sc, hp⟩ := onReceiveSlice_frame (P := P) p prop.slice
  obtain ⟨sc', hu'⟩ := onReceiveSlice_frame (P := P) u prop.slice
  unfold Core.onReceiveProposal
  split
  swap
  · exact t.fail _
  refine hslice.bind fun _ => ?_
  have t₁ := hslice.tracks
  rw [hp, hu'] at t₁ ⊢
  have hwf := hu.with_shards (P := P) sc'
  have hread := handleRead_shards p u sc sc'
  have hemit : Alike (Res.emit { p with sc := sc } [.doBroadcastSlice prop.slice])
      (Res.emit { u with sc := sc' } [.doBroadcastSlice prop.slice]) := ⟨t₁, rfl, rfl, rfl⟩
  refine hemit.bind fun _ => ?_
  dsimp only [Res.emit]
  have hidp : prop.proposer ≠ p.id := by rwa [t.id_eq]
  have hdp : ({ p with sc := sc } : Core H Sig).delivered prop.blk = true := hd
  have hdu : ({ u with sc := sc' } : Core H Sig).delivered prop.blk = true := t.delivered hd
  rw [if_neg hidp, if_neg hid, if_pos hdp, if_pos hdu]
  obtain ⟨hup, hvote⟩ := t₁.handle hwf hdp (by rw [hread, h])
  refine hup.bind fun hexit => ?_
  obtain ⟨hd', hread'⟩ := hvote hexit
  exact hup.tracks.castVote hd' hread'

/-- The own proposal. -/
theorem onReceiveProposal_own (t : p.Tracks u) {prop : Proposal H} (hid : prop.proposer = u.id)
    (hd : p.delivered prop.blk = true) (h : voteRead p u u.bLock prop.blk = true) :
    Alike (p.onReceiveProposal P prop) (u.onReceiveProposal P prop) := by
  have hslice := t.onReceiveSlice (P := P) prop.slice
  obtain ⟨sc, hp⟩ := onReceiveSlice_frame (P := P) p prop.slice
  obtain ⟨sc', hu'⟩ := onReceiveSlice_frame (P := P) u prop.slice
  unfold Core.onReceiveProposal
  split
  swap
  · exact t.fail _
  refine hslice.bind fun _ => ?_
  have t₁ := hslice.tracks
  rw [hp, hu'] at t₁ ⊢
  have hemit : Alike (Res.emit { p with sc := sc } [.doBroadcastSlice prop.slice])
      (Res.emit { u with sc := sc' } [.doBroadcastSlice prop.slice]) := ⟨t₁, rfl, rfl, rfl⟩
  refine hemit.bind fun _ => ?_
  dsimp only [Res.emit]
  have hidp : prop.proposer = p.id := by rwa [t.id_eq]
  rw [if_pos hidp, if_pos hid]
  refine t₁.ok.bind fun _ => t₁.castVote hd ?_
  have hread : voteRead ({ p with sc := sc } : Core H Sig) { u with sc := sc' } = voteRead p u :=
    voteRead_congr (.of_storage rfl rfl) (.of_storage rfl rfl) rfl
  rw [hread]
  exact h

theorem sendProposal (t : p.Tracks u) (cmds : List UInt256) (hd : p.delivered nblk = true)
    (h : voteRead p u u.bLock nblk = true) :
    Alike (p.sendProposal P cmds nblk) (u.sendProposal P cmds nblk) := by
  unfold Core.sendProposal
  rw [t.rse_eq, t.height hd, t.vheight_eq, t.id_eq]
  split
  · exact t.fail _
  split
  · exact t.fail _
  split
  · exact t.fail _
  rename_i proofs _
  have hprops : p.proposals P nblk proofs = u.proposals P nblk proofs := by
    rw [proposals, proposals, t.id_eq]
  rw [hprops]
  dsimp only
  split
  · exact t.fail _
  split
  · exact t.fail _
  rename_i prop hprop
  obtain ⟨proof, _, hproof⟩ := List.mem_map.mp (List.mem_of_getElem? hprop)
  have hid : prop.proposer = u.id := by rw [← hproof]
  have hblk : prop.blk = nblk := by rw [← hproof]
  rw [← hblk] at hd h
  have hown := t.onReceiveProposal_own (P := P) hid hd h
  refine hown.bind fun _ => ?_
  exact ⟨hown.tracks, rfl, rfl, rfl⟩

end Tracks

/-- The votes of a block and their certificate. -/
def votes (c : Core H Sig) (x : H) : Option (List ReplicaID × Option (QuorumCert H Sig)) :=
  (c.storage x).map fun b => (b.voted, b.selfQc)

/-- A vote is counted in the same way: the votes of its block are the same in both cores, or their
certificate would not become `hqc`. -/
def countRead [DecidableEq Sig] (p u : Core H Sig) (x : H) : Bool :=
  decide (u.height x ≤ u.height u.hqc.1) || decide (p.votes x = u.votes x)

/-- The vote is neither late nor a duplicate. -/
def fresh (config : ReplicaConfig) (vote : Vote H Sig) (b : Block H Sig) : Bool :=
  decide (b.voted.length < config.nmajority) && decide (vote.voter ∉ b.voted)

/-- The certificate of a block with one more vote. -/
def certWith (config : ReplicaConfig) (vote : Vote H Sig) (b : Block H Sig) : QuorumCert H Sig :=
  let qc := b.selfQc.getD (.create config vote.blkHash)
  match qc.addPart vote.voter vote.cert with
  | .ok qc => qc
  | .error _ => qc

/-- A block when a vote has been counted. -/
def counted (config : ReplicaConfig) (vote : Vote H Sig) (b : Block H Sig) : Block H Sig :=
  if fresh config vote b then
    { b with voted := vote.voter :: b.voted, selfQc := some (certWith config vote b) }
  else b

theorem counted_dag (config : ReplicaConfig) (vote : Vote H Sig) (b : Block H Sig) :
    (counted config vote b).dag = b.dag := by
  unfold counted
  split <;> rfl

theorem certWith_objHash (config : ReplicaConfig) {vote : Vote H Sig}
    (hself : ∀ qc, b.selfQc = some qc → qc.objHash = vote.blkHash) :
    (certWith config vote b).objHash = vote.blkHash := by
  have hqc : (b.selfQc.getD (.create config vote.blkHash)).objHash = vote.blkHash := by
    cases hb : b.selfQc with
    | none => rfl
    | some qc => exact hself qc hb
  unfold certWith
  generalize b.selfQc.getD (.create config vote.blkHash) = qc at hqc
  dsimp only
  unfold QuorumCert.addPart
  split
  · rename_i heq
    split at heq
    · cases heq
    · split at heq
      · rw [← Except.ok.inj heq, hqc]
      · rw [← Except.ok.inj heq, ← hqc]
  · exact hqc

/-- `on_receive_vote` for a delivered block. -/
theorem onReceiveVote_eq {vote : Vote H Sig} (hb : c.storage vote.blkHash = some b)
    (hd : b.delivered = true) (hself : ∀ qc, b.selfQc = some qc → qc.objHash = vote.blkHash)
    (hcert : vote.cert.objHash = vote.blkHash) :
    c.onReceiveVote vote =
      if fresh c.config vote b && decide (b.voted.length + 1 = c.config.nmajority) then
        ((c.modify vote.blkHash (counted c.config vote)).updateHqc vote.blkHash
          (certWith c.config vote b)).bind fun c => ⟨c, [], [.onQcFinish vote.blkHash], none⟩
      else .ok (c.modify vote.blkHash (counted c.config vote)) := by
  have hold (hnot : fresh c.config vote b = false) :
      c.modify vote.blkHash (counted c.config vote) = c := by
    have hmap : (c.storage vote.blkHash).map (counted c.config vote) = c.storage vote.blkHash := by
      rw [hb, Option.map_some, counted, hnot]
      rfl
    rw [modify, hmap, Function.update_eq_self]
  unfold onReceiveVote
  simp only [hb, hd, Bool.not_true, Bool.false_eq_true, if_false]
  by_cases hlate : c.config.nmajority ≤ b.voted.length
  · have hnot : fresh c.config vote b = false := by simp [fresh, hlate]
    rw [if_pos hlate, hnot, hold hnot]
    rfl
  rw [if_neg hlate]
  by_cases hdup : vote.voter ∈ b.voted
  · have hnot : fresh c.config vote b = false := by simp [fresh, hdup]
    rw [if_pos hdup, hnot, hold hnot]
    rfl
  rw [if_neg hdup]
  have hfresh : fresh c.config vote b = true := by
    simp [fresh, hdup, Nat.lt_of_not_le hlate]
  have hqc : (b.selfQc.getD (.create c.config vote.blkHash)).objHash = vote.blkHash := by
    cases hq : b.selfQc with
    | none => rfl
    | some qc => exact hself qc hq
  have hadd : (b.selfQc.getD (.create c.config vote.blkHash)).addPart vote.voter vote.cert =
      .ok (certWith c.config vote b) := by
    unfold certWith
    generalize b.selfQc.getD (.create c.config vote.blkHash) = qc at hqc
    dsimp only
    unfold QuorumCert.addPart
    rw [if_neg (by rw [hcert, hqc]; exact not_not.mpr rfl)]
    split <;> rfl
  have hmod : (c.modify vote.blkHash fun b' => { b' with
      voted := vote.voter :: b'.voted, selfQc := some (certWith c.config vote b) }) =
        c.modify vote.blkHash (counted c.config vote) := by
    rw [modify_eq_put hb, modify_eq_put hb, counted, hfresh, if_pos rfl]
  simp only [hadd, hmod, hfresh, Bool.true_and, decide_eq_true_eq]
  rfl

namespace Tracks

theorem onReceiveVote [DecidableEq Sig] (t : p.Tracks u) (hdag : u.Dag P)
    (hselfu : ∀ b qc, u.storage h = some b → b.selfQc = some qc → qc.objHash = h)
    {vote : Vote H Sig} (hvote : vote.blkHash = h) (hcert : vote.cert.objHash = vote.blkHash)
    (hd : p.delivered h = true) (hread : countRead p u h = true) :
    Alike (p.onReceiveVote vote) (u.onReceiveVote vote) := by
  subst hvote
  obtain ⟨b', hb', hd'⟩ := stored_of_delivered hd
  obtain ⟨b, hb, hdu⟩ := stored_of_delivered (t.delivered hd)
  rw [onReceiveVote_eq hb' hd' (fun _ => t.selfQc hb') hcert,
    onReceiveVote_eq hb hdu (fun qc => hselfu b qc hb) hcert, t.config_eq]
  have hsamep : p.SameDag (p.modify vote.blkHash (counted u.config vote)) :=
    .modify (counted_dag _ _)
  have hsameu : u.SameDag (u.modify vote.blkHash (counted u.config vote)) :=
    .modify (counted_dag _ _)
  have t₁ : (p.modify vote.blkHash (counted u.config vote)).Tracks
      (u.modify vote.blkHash (counted u.config vote)) := by
    refine t.modify _ (counted_dag _ _) (counted_dag _ _) (fun heq => by rw [heq]) ?_
    intro b₀ qc hb₀ hqc
    unfold counted at hqc
    split at hqc
    · rw [← Option.some.inj hqc]
      exact certWith_objHash u.config fun _ => t.selfQc hb₀
    · exact t.selfQc hb₀ hqc
  have hk : (p.modify vote.blkHash (counted u.config vote)).delivered vote.blkHash =
      (u.modify vote.blkHash (counted u.config vote)).delivered vote.blkHash := by
    rw [hsamep.delivered, hsameu.delivered, hd, t.delivered hd]
  have hup (qc : QuorumCert H Sig) := t₁.updateHqc (hsameu.dag hdag) hk qc
  rw [countRead, Bool.or_eq_true, decide_eq_true_eq, decide_eq_true_eq] at hread
  obtain hlow | hsame := hread
  · -- neither certificate becomes `hqc`
    have hquiet (c : Core H Sig) (qc : QuorumCert H Sig)
        (hle : c.height vote.blkHash ≤ c.height c.hqc.1) :
        c.updateHqc vote.blkHash qc = .ok c := by
      rw [Core.updateHqc, if_neg (Nat.not_lt.mpr hle)]
    have hleu : (u.modify vote.blkHash (counted u.config vote)).height vote.blkHash ≤
        (u.modify vote.blkHash (counted u.config vote)).height u.hqc.1 := by
      rw [hsameu.height, hsameu.height]
      exact hlow
    have hlep : (p.modify vote.blkHash (counted u.config vote)).height vote.blkHash ≤
        (p.modify vote.blkHash (counted u.config vote)).height p.hqc.1 := by
      rw [hsamep.height, hsamep.height, t.height hd, t.height t.hqc, t.hqc_eq]
      exact hlow
    rw [hquiet _ _ hlep, hquiet _ _ hleu, Res.bind_none rfl, Res.bind_none rfl]
    refine ⟨?_, ?_, ?_, ?_⟩
    · split <;> split <;> exact t₁
    · split <;> split <;> rfl
    · split <;> split <;> rfl
    · split <;> split <;> rfl
  · rw [votes, votes, hb', hb, Option.map_some, Option.map_some, Option.some.injEq,
      Prod.mk.injEq] at hsame
    obtain ⟨hvoted, hself⟩ := hsame
    have hfresh : fresh u.config vote b' = fresh u.config vote b := by rw [fresh, fresh, hvoted]
    have hcertWith : certWith u.config vote b' = certWith u.config vote b := by
      rw [certWith, certWith, hself]
    rw [hfresh, hvoted, hcertWith]
    split
    · refine (hup _).bind fun _ => ⟨(hup _).tracks, rfl, rfl, rfl⟩
    · exact t₁.ok

/-- The unpruned core delivers a block that still waits for a released block in the other. -/
theorem deliver_ahead (t : p.Tracks u) (hdag : u.Dag P) {x p₀ : H} (hb : u.storage x = some b)
    (hbd : b.delivered = false) (hp₀ : b.parentHashes.head? = some p₀)
    (hqc : (u.storage b.qc.objHash).isSome) (hall : b.parentHashes.all u.delivered = true) :
    Alike (.ok p) (u.onDeliverBlk x) := by
  have hpx : p.storage x = some b := by rw [t.undelivered (by rw [delivered_of hb, hbd]), hb]
  obtain ⟨hnot, _⟩ | ⟨_, hok⟩ := onDeliverBlk_of_stored hb hbd hp₀ hqc
  · rw [hall] at hnot
    cases hnot
  have hrem : b.Remains (linked b (u.height p₀ + 1)) := by
    refine ⟨rfl, rfl, fun hd => ?_, Or.inl (hdag.undelivered hb hbd).1⟩
    rw [hbd] at hd
    cases hd
  have hd : p.delivered x = true → b.delivered = true := by
    rw [delivered_of hpx]
    exact fun hd => hd
  have hq (q : H) (hq : b.qcRef = some q) := t.qcRef hpx hq
  have hput : ({ p.put x b with tails := p.tails } : Core H Sig).Tracks
      { u.put x (linked b (u.height p₀ + 1)) with
        tails := (u.tails.filter (· ∉ b.parentHashes)).insert x } :=
    t.put x (.remains hrem) hd (t.parents hpx) hq fun _ => t.selfQc hpx
  rw [put_storage p hpx] at hput
  rw [hok]
  exact Tracks.ok hput

/-- `on_deliver_blk`, when the handlers call it. -/
theorem onDeliverBlk (t : p.Tracks u) (hdag : u.Dag P) {x : H}
    (h : (u.storage x).all (fun b => b.delivered || !b.parentHashes.isEmpty) = true) :
    Alike (if Replica.deliverable P p x then p.onDeliverBlk x else .ok p)
      (if Replica.deliverable P u x then u.onDeliverBlk x else .ok u) := by
  cases hux : u.storage x with
  | none =>
    have hpx : p.storage x = none := by
      rw [t.undelivered (by rw [Core.delivered, hux]; rfl), hux]
    have hnot (c : Core H Sig) (hx : c.storage x = none) : Replica.deliverable P c x = false := by
      rw [Replica.deliverable, hx]
    rw [hnot p hpx, hnot u hux]
    exact t.ok
  | some b =>
    have hdeliverable {c : Core H Sig} {b₀ : Block H Sig} (hb₀ : c.storage x = some b₀) :
        Replica.deliverable P c x = ((Decidable.decide (b₀.qc.objHash = c.b0) ||
          b₀.qc.verify P c.config == some true) && (c.storage b₀.qc.objHash).isSome &&
            b₀.parentHashes.all c.delivered) := by
      rw [Replica.deliverable, hb₀]
    rw [hux, Option.all_some, Bool.or_eq_true, Bool.not_eq_true', List.isEmpty_eq_false_iff] at h
    by_cases hp : Replica.deliverable P p x = true
    · -- the pruned core delivers, and so does the other
      rw [if_pos hp]
      obtain ⟨b', hpx⟩ : ∃ b', p.storage x = some b' := by
        cases hpx : p.storage x with
        | none =>
          rw [Replica.deliverable, hpx] at hp
          cases hp
        | some b' => exact ⟨b', rfl⟩
      have hdata := t.qc_eq hpx hux
      have hparents : b'.parentHashes = b.parentHashes := congrArg BlockData.parentHashes hdata
      have hqc : b'.qc = b.qc := congrArg BlockData.qc hdata
      rw [hdeliverable hpx, Bool.and_eq_true, Bool.and_eq_true] at hp
      obtain ⟨⟨hverified, hstored⟩, hall⟩ := hp
      have hu : Replica.deliverable P u x = true := by
        rw [hdeliverable hux, ← hqc, ← hparents, ← t.b0_eq, ← t.config_eq, hverified,
          t.isSome hstored, Bool.true_and, Bool.true_and]
        exact List.all_eq_true.mpr fun y hy => t.delivered (List.all_eq_true.mp hall y hy)
      rw [if_pos hu]
      cases hd : p.delivered x with
      | true => exact (t.deliver_again hd).1
      | false =>
        have hne : x ≠ P.genesisHash := by
          rintro rfl
          have hd0 := t.b0
          rw [t.b0_eq, hdag.b0, hd] at hd0
          cases hd0
        have hlinked (hbd : b.delivered = true) := hdag.linked hux hne hbd
        have hhead : ∃ p₀, b.parentHashes.head? = some p₀ := by
          obtain hbd | hnil := h
          · obtain ⟨_, _, p₀, hp₀, _⟩ := hlinked hbd
            exact ⟨p₀, hp₀⟩
          · exact ⟨_, List.head?_eq_some_head hnil⟩
        obtain ⟨p₀, hp₀⟩ := hhead
        refine (t.deliver hpx hall (by rw [hparents, hp₀]) hstored ?_).1
        intro b₁ hb₁ hbd
        rw [hux] at hb₁
        obtain rfl := Option.some.inj hb₁
        obtain ⟨hlpar, hlqc, q, hq, _, hheight⟩ := hlinked hbd
        rw [hp₀] at hq
        rw [Option.some.inj hq]
        exact ⟨hlpar, hlqc, hheight⟩
    · rw [if_neg hp]
      by_cases hu : Replica.deliverable P u x = true
      · rw [if_pos hu]
        rw [hdeliverable hux, Bool.and_eq_true, Bool.and_eq_true] at hu
        obtain ⟨⟨_, hstored⟩, hall⟩ := hu
        cases hbd : b.delivered with
        | true =>
          have hskip : u.onDeliverBlk x = .ok u := by
            rw [Core.onDeliverBlk, hux]
            simp [hbd]
          rw [hskip]
          exact t.ok
        | false =>
          have hnil := h.resolve_left (by rw [hbd]; exact Bool.false_ne_true)
          exact t.deliver_ahead hdag hux hbd (List.head?_eq_some_head hnil) hstored hall
      · rw [if_neg hu]
        exact t.ok

theorem onPropose (t : p.Tracks u) (hu : u.WellFormed P) (cmds : List UInt256) {parents : List H}
    (extra : Bytes) (hpar : parents.all p.delivered = true)
    (h : (parents.isEmpty || handleRead (p.beforeOwnUpdate P cmds parents extra)
      (u.beforeOwnUpdate P cmds parents extra) (P.hashBlock (u.proposedData P cmds parents extra))) =
        true) :
    Alike (p.onPropose P cmds parents extra) (u.onPropose P cmds parents extra) := by
  unfold Core.onPropose
  cases hp₀ : parents.head? with
  | none => exact t.fail _
  | some p₀ =>
    have hempty : parents.isEmpty = false := by
      cases parents with
      | nil => cases hp₀
      | cons _ _ => rfl
    generalize hbnew : P.hashBlock (u.proposedData P cmds parents extra) = bnew at h
    have hbnew' : P.hashBlock (p.proposedData P cmds parents extra) = bnew := by
      rw [t.proposedData, hbnew]
    have hparu : parents.all u.delivered = true :=
      List.all_eq_true.mpr fun y hy => t.delivered (List.all_eq_true.mp hpar y hy)
    obtain ⟨hal, hd, hexit⟩ := t.deliverProposed hu hp₀ hpar hbnew
    obtain ⟨hgrow, _⟩ := beforeOwnUpdate_grows hu hp₀ hparu hbnew
    rw [hempty, Bool.false_or, beforeOwnUpdate, beforeOwnUpdate, hp₀] at h
    rw [beforeOwnUpdate, hp₀] at hgrow
    dsimp only at h hgrow ⊢
    rw [hbnew'] at h ⊢
    rw [hbnew] at h hgrow
    refine hal.bind fun _ => ?_
    obtain ⟨hup, hvote⟩ := hal.tracks.handle hgrow.wellFormed hd h
    refine hup.bind fun hexit => ?_
    obtain ⟨hd', hread⟩ := hvote hexit
    exact hup.tracks.sendProposal cmds hd' hread

end Tracks

/-- What a call asks for to go in the same way on a core that has been pruned. What it names is
delivered in both cores or in none; `update` and the vote read no certificate of a cleared block and
no decision that has been lost; no lost vote counts for a certificate; and no block without parents
is delivered. -/
def transparent [DecidableEq Sig] (P : Primitives H Sig) (p u : Core H Sig) : Call H Sig → Bool
  | .onDeliverBlk blk => (u.storage blk).all fun b => b.delivered || !b.parentHashes.isEmpty
  | .onReceiveProposal prop =>
    p.delivered prop.blk == u.delivered prop.blk &&
      (!u.delivered prop.blk || handleRead p u prop.blk)
  | .onReceiveVote vote =>
    p.delivered vote.blkHash == u.delivered vote.blkHash && countRead p u vote.blkHash
  | .onPropose cmds parents extra =>
    parents.all p.delivered == parents.all u.delivered &&
      (!parents.all u.delivered || parents.isEmpty ||
        handleRead (p.beforeOwnUpdate P cmds parents extra) (u.beforeOwnUpdate P cmds parents extra)
          (P.hashBlock (u.proposedData P cmds parents extra)))
  | _ => true

/-- Any call. -/
theorem Tracks.handled [DecidableEq Sig] (t : p.Tracks u) (hu : u.WellFormed P) {i : Call H Sig}
    (h : transparent P p u i = true) : Alike (Pruning.handled P p i) (Pruning.handled P u i) := by
  -- a call that both cores make, or none
  have both (hpermits : p.permits P i = u.permits P i)
      (hcall : u.permits P i = true → Alike (p.call P i) (u.call P i)) :
      Alike (if p.permits P i then p.call P i else .ok p)
        (if u.permits P i then u.call P i else .ok u) := by
    rw [hpermits]
    by_cases hi : u.permits P i = true
    · rw [if_pos hi, if_pos hi]
      exact hcall hi
    · rw [if_neg hi, if_neg hi]
      exact t.ok
  cases i with
  | addBlk data => exact both rfl fun _ => Tracks.ok (t.addBlk hu.dag data)
  | onDeliverBlk blk => exact t.onDeliverBlk hu.dag h
  | onReceiveProposal prop =>
    simp only [transparent, Bool.and_eq_true, beq_iff_eq, Bool.or_eq_true, Bool.not_eq_true'] at h
    obtain ⟨hk, h⟩ := h
    refine both (by rw [permits, permits, t.id_eq, hk]) fun hi => ?_
    simp only [permits, Bool.and_eq_true, decide_eq_true_eq] at hi
    obtain ⟨⟨hid, _⟩, hd⟩ := hi
    have hread := h.resolve_left (by rw [hd]; exact Bool.noConfusion)
    exact t.onReceiveProposal hu hid (hk.trans hd) hread
  | onReceiveVote vote =>
    simp only [transparent, Bool.and_eq_true, beq_iff_eq] at h
    obtain ⟨hk, h⟩ := h
    refine both (by rw [permits, permits, hk]) fun hi => ?_
    simp only [permits, Bool.and_eq_true, decide_eq_true_eq] at hi
    obtain ⟨hcert, hd⟩ := hi
    exact t.onReceiveVote hu.dag (fun _ _ => hu.selfQcHash) rfl hcert (hk.trans hd) h
  | onReceiveSlice s => exact both rfl fun _ => t.onReceiveSlice s
  | onPropose cmds parents extra =>
    simp only [transparent, Bool.and_eq_true, beq_iff_eq] at h
    obtain ⟨hk, h⟩ := h
    refine both hk fun hi => ?_
    have hpar : parents.all u.delivered = true := hi
    rw [hpar, Bool.not_true, Bool.false_or] at h
    exact t.onPropose hu cmds extra (hk.trans hpar) h
  | setVoteDisabled f =>
    have hrest := congrArg (fun c : Core H Sig => { c with voteDisabled := f }) t.rest
    refine Tracks.ok ?_
    exact t.of_storage rfl rfl hrest rfl (Or.inl rfl) (Or.inl rfl) (Or.inl rfl)

end Core
end LibHotStuff
