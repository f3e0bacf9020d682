import LibHotStuff.Proofs.BlockFrame
import LibHotStuff.Proofs.HighTail

namespace LibHotStuff

variable {H Sig : Type} [DecidableEq H] {P : Primitives H Sig}

namespace QuorumCert

/-- The certificate has one valid signature for each voter, and nothing else. -/
structure Tallies (P : Primitives H Sig) (config : ReplicaConfig) (qc : QuorumCert H Sig)
    (voted : List ReplicaID) : Prop where
  size : qc.sigs.length = config.nreplicas
  voters : ∀ rid, rid ∈ voted ↔ ∃ sig, qc.sigs[rid]? = some (some sig)
  valid : ∀ rid sig, qc.sigs[rid]? = some (some sig) → P.verifySig rid qc.objHash sig = true

variable {qc qc' : QuorumCert H Sig} {config : ReplicaConfig} {voted : List ReplicaID}

omit [DecidableEq H] in
theorem Tallies.create (P : Primitives H Sig) (config : ReplicaConfig) (h : H) :
    (create config h : QuorumCert H Sig).Tallies P config [] := by
  have hnone (rid : ReplicaID) (sig : Sig) :
      (QuorumCert.create config h).sigs[rid]? ≠ some (some sig) := by
    intro hsome
    have hmem := List.mem_of_getElem? hsome
    cases List.eq_of_mem_replicate hmem
  refine ⟨List.length_replicate, fun rid => ⟨nofun, fun hex => ?_⟩, fun rid sig hsome => ?_⟩
  · obtain ⟨sig, hsig⟩ := hex
    exact absurd hsig (hnone rid sig)
  · exact absurd hsome (hnone rid sig)

/-- A new vote is added to the certificate. -/
theorem Tallies.addPart (h : qc.Tallies P config voted) {rid : ReplicaID} {pc : PartCert H Sig}
    (hrid : rid < config.nreplicas) (hnew : rid ∉ voted) (hobj : pc.objHash = qc.objHash)
    (hsig : P.verifySig rid pc.objHash pc.sig = true) :
    ∃ qc', qc.addPart rid pc = .ok qc' ∧ qc'.objHash = qc.objHash ∧
      qc'.Tallies P config (rid :: voted) := by
  have hlt : rid < qc.sigs.length := by rw [h.size]; exact hrid
  have hadd : qc.addPart rid pc = .ok { qc with sigs := qc.sigs.set rid (some pc.sig) } := by
    unfold QuorumCert.addPart
    rw [if_neg (fun hne => hne hobj)]
    split
    · rename_i sig hsome
      exact absurd ((h.voters rid).mpr ⟨sig, hsome⟩) hnew
    · rfl
  refine ⟨_, hadd, rfl, by rw [List.length_set, h.size], fun r => ?_, fun r sig hr => ?_⟩
  · by_cases heq : rid = r
    · subst heq
      rw [List.getElem?_set_self hlt]
      exact ⟨fun _ => ⟨pc.sig, rfl⟩, fun _ => List.mem_cons_self⟩
    · rw [List.getElem?_set_ne heq, ← h.voters r, List.mem_cons]
      exact ⟨fun hmem => hmem.resolve_left (Ne.symm heq), Or.inr⟩
  · by_cases heq : rid = r
    · subst heq
      rw [List.getElem?_set_self hlt] at hr
      injection hr with hr
      injection hr with hr
      rw [← hr, ← hobj]
      exact hsig
    · rw [List.getElem?_set_ne heq] at hr
      exact h.valid r sig hr

omit [DecidableEq H] in
theorem mem_signers (hwidth : qc.sigs.length ≤ 2 ^ 16) (rid : ReplicaID) (sig : Sig) :
    (rid, sig) ∈ qc.signers ↔ qc.sigs[rid]? = some (some sig) := by
  unfold signers
  rw [List.mem_filterMap]
  constructor
  · intro h
    obtain ⟨⟨o, i⟩, hmem, hsome⟩ := h
    rw [List.mem_zipIdx_iff_getElem?] at hmem
    obtain ⟨s, rfl, hpair⟩ := Option.map_eq_some_iff.mp hsome
    injection hpair with hi hs
    have hlt := (List.getElem?_eq_some_iff.mp hmem).1
    rw [Nat.mod_eq_of_lt (Nat.lt_of_lt_of_le hlt hwidth)] at hi
    rw [← hi, ← hs]
    exact hmem
  · intro h
    have hlt := (List.getElem?_eq_some_iff.mp h).1
    refine ⟨(some sig, rid), List.mem_zipIdx_iff_getElem?.mpr h, ?_⟩
    dsimp only
    rw [Option.map_some, Nat.mod_eq_of_lt (Nat.lt_of_lt_of_le hlt hwidth)]

omit [DecidableEq H] in
theorem checkSigs_eq_true {l : List (ReplicaID × Sig)} {h : H}
    (hl : ∀ rid sig, (rid, sig) ∈ l → rid < config.nreplicas ∧ P.verifySig rid h sig = true) :
    checkSigs P config h l = some true := by
  induction l with
  | nil => rfl
  | cons x l ih =>
    obtain ⟨hrid, hsig⟩ := hl x.1 x.2 List.mem_cons_self
    rw [checkSigs, if_neg (Nat.not_le_of_lt hrid), if_pos hsig]
    exact ih fun rid sig hmem => hl rid sig (List.mem_cons_of_mem x hmem)

omit [DecidableEq H] in
/-- A certificate that tallies verifies as soon as there are `nmajority` voters. -/
theorem Tallies.verify (h : qc.Tallies P config voted) (hwidth : config.nreplicas ≤ 2 ^ 16)
    (hnodup : voted.Nodup) (hmajority : config.nmajority ≤ voted.length) :
    qc.verify P config = some true := by
  have hlen : qc.sigs.length ≤ 2 ^ 16 := by rw [h.size]; exact hwidth
  have hset : (qc.signers.map Prod.fst).toFinset = voted.toFinset := by
    ext rid
    rw [List.mem_toFinset, List.mem_toFinset, h.voters, List.mem_map]
    constructor
    · intro hmem
      obtain ⟨⟨r, sig⟩, hmem, rfl⟩ := hmem
      exact ⟨sig, (mem_signers hlen r sig).mp hmem⟩
    · intro hex
      obtain ⟨sig, hsig⟩ := hex
      exact ⟨(rid, sig), (mem_signers hlen rid sig).mpr hsig, rfl⟩
  have hcount : (qc.signers.map Prod.fst).dedup.length = voted.length := by
    rw [← List.card_toFinset, hset, List.toFinset_card_of_nodup hnodup]
  unfold QuorumCert.verify
  rw [hcount, if_neg (Nat.not_lt_of_le hmajority)]
  apply checkSigs_eq_true
  intro rid sig hmem
  have hsig := (mem_signers hlen rid sig).mp hmem
  refine ⟨?_, h.valid rid sig hsig⟩
  rw [← h.size]
  exact (List.getElem?_eq_some_iff.mp hsig).1

end QuorumCert

namespace Core

variable {c c' : Core H Sig}

/-- The certificate is for genesis, or verifies. -/
def Certifies (P : Primitives H Sig) (c : Core H Sig) (qc : QuorumCert H Sig) : Prop :=
  qc.objHash = P.genesisHash ∨ qc.verify P c.config = some true

/-- The votes for a block are those in the certificate of its own, and the certificates in
delivered blocks and in `hqc` have been verified. -/
structure Tallied (P : Primitives H Sig) (c : Core H Sig) : Prop where
  wellFormed : c.WellFormed P
  width : c.config.nreplicas ≤ 2 ^ 16
  nodup : ∀ {h b}, c.storage h = some b → h ≠ P.genesisHash → b.voted.Nodup
  unvoted : ∀ {h b}, c.storage h = some b → h ≠ P.genesisHash → b.selfQc = none → b.voted = []
  tallies : ∀ {h b qc}, c.storage h = some b → h ≠ P.genesisHash → b.selfQc = some qc →
    qc.Tallies P c.config b.voted
  certified : ∀ {h b}, c.storage h = some b → b.delivered = true → c.Certifies P b.qc
  hqc : c.Certifies P c.hqc.2

namespace Tallied

omit [DecidableEq H] in
/-- A call that neither stores nor delivers a block nor counts a vote. -/
theorem of_sameBlocks (hc : c.Tallied P) (h : c.SameBlocks c') (hwf : c'.WellFormed P) :
    c'.Tallied P := by
  have hcert (qc : QuorumCert H Sig) : c'.Certifies P qc ↔ c.Certifies P qc := by
    rw [Certifies, Certifies, h.config]
  refine ⟨hwf, by rw [h.config]; exact hc.width, ?_, ?_, ?_, ?_, ?_⟩
  · intro x b' hb' hx
    obtain ⟨b, d, hb, rfl⟩ := h.stored hb'
    have hnodup := hc.nodup hb hx
    exact hnodup
  · intro x b' hb' hx hself
    obtain ⟨b, d, hb, rfl⟩ := h.stored hb'
    have hunvoted := hc.unvoted hb hx hself
    exact hunvoted
  · intro x b' qc hb' hx hself
    obtain ⟨b, d, hb, rfl⟩ := h.stored hb'
    have htallies := hc.tallies hb hx hself
    rw [h.config]
    exact htallies
  · intro x b' hb' hd
    obtain ⟨b, d, hb, rfl⟩ := h.stored hb'
    have hcertified := hc.certified hb hd
    rw [hcert]
    exact hcertified
  · rw [hcert]
    obtain heq | ⟨x, b, hb, hd, heq⟩ := h.hqc
    · rw [heq]
      exact hc.hqc
    · rw [heq]
      exact hc.certified hb hd

/-- One block is stored. -/
theorem put (hc : c.Tallied P) {h : H} {b : Block H Sig} {tails : List H}
    (hwf : ({ c.put h b with tails := tails } : Core H Sig).WellFormed P)
    (hnodup : h ≠ P.genesisHash → b.voted.Nodup)
    (hunvoted : h ≠ P.genesisHash → b.selfQc = none → b.voted = [])
    (htallies : h ≠ P.genesisHash → ∀ qc, b.selfQc = some qc → qc.Tallies P c.config b.voted)
    (hcertified : b.delivered = true → c.Certifies P b.qc) :
    ({ c.put h b with tails := tails } : Core H Sig).Tallied P := by
  have hcases {x : H} {bx : Block H Sig} (hx : (c.put h b).storage x = some bx) :
      x = h ∧ bx = b ∨ c.storage x = some bx := by
    by_cases hxh : x = h
    · subst hxh
      rw [put_self] at hx
      exact Or.inl ⟨rfl, (Option.some.inj hx).symm⟩
    · rw [put_of_ne c b hxh] at hx
      exact Or.inr hx
  refine ⟨hwf, hc.width, ?_, ?_, ?_, ?_, hc.hqc⟩
  · intro x bx hbx hx
    obtain ⟨rfl, rfl⟩ | hold := hcases hbx
    · exact hnodup hx
    · exact hc.nodup hold hx
  · intro x bx hbx hx hself
    obtain ⟨rfl, rfl⟩ | hold := hcases hbx
    · exact hunvoted hx hself
    · exact hc.unvoted hold hx hself
  · intro x bx qc hbx hx hself
    obtain ⟨rfl, rfl⟩ | hold := hcases hbx
    · exact htallies hx qc hself
    · exact hc.tallies hold hx hself
  · intro x bx hbx hd
    obtain ⟨rfl, rfl⟩ | hold := hcases hbx
    · exact hcertified hd
    · exact hc.certified hold hd

/-- A fetched block has no votes. -/
theorem addBlk (hc : c.Tallied P) (d : BlockData H Sig) : (c.addBlk P d.fetched).Tallied P := by
  have hwf := (addBlk_grows hc.wellFormed d).1.wellFormed
  unfold Core.addBlk at hwf ⊢
  split
  · exact hc
  · rename_i hnone
    have hstored : c.storage (P.hashBlock d) = none := hnone
    split at hwf
    · rename_i b hb
      exact absurd (hb.symm.trans hstored) nofun
    · exact hc.put hwf (fun _ => List.nodup_nil) (fun _ _ => rfl) (fun _ _ h => nomatch h) nofun

/-- A stored block is written again with the same votes. -/
theorem rewrite (hc : c.Tallied P) {h : H} {b b' : Block H Sig} {tails : List H}
    (hb : c.storage h = some b)
    (hwf : ({ c.put h b' with tails := tails } : Core H Sig).WellFormed P)
    (hvoted : b'.voted = b.voted) (hself : b'.selfQc = b.selfQc)
    (hcertified : b'.delivered = true → c.Certifies P b'.qc) :
    ({ c.put h b' with tails := tails } : Core H Sig).Tallied P := by
  apply hc.put hwf
  · intro hgen
    rw [hvoted]
    exact hc.nodup hb hgen
  · intro hgen
    rw [hself, hvoted]
    exact hc.unvoted hb hgen
  · intro hgen qc hqc
    rw [hself] at hqc
    rw [hvoted]
    exact hc.tallies hb hgen hqc
  · exact hcertified

/-- A block is delivered whose certificate has been verified. -/
theorem onDeliverBlk (hc : c.Tallied P) {blk : H}
    (hcert : ∀ b, c.storage blk = some b → c.Certifies P b.qc)
    (hexit : (c.onDeliverBlk blk).exit ≠ some (.throw .qcBlockNotFetched)) :
    (c.onDeliverBlk blk).core.Tallied P := by
  have hwf := (onDeliverBlk_grows hc.wellFormed blk rfl hexit).1.wellFormed
  unfold Core.onDeliverBlk at hwf hexit ⊢
  split
  · exact hc
  · rename_i b hb
    simp only [hb] at hwf hexit
    split
    · exact hc
    · rename_i hbd
      rw [if_neg hbd] at hwf hexit
      -- a failed check leaves the block undelivered
      have hpart (b' : Block H Sig) (hvoted : b'.voted = b.voted) (hself : b'.selfQc = b.selfQc)
          (hdel : b'.delivered = b.delivered) (hwf : (c.put blk b').WellFormed P) :
          (c.put blk b').Tallied P := by
        have htallied : ({ c.put blk b' with tails := c.tails } : Core H Sig).Tallied P :=
          hc.rewrite hb hwf hvoted hself fun hd => absurd (hdel.symm.trans hd) hbd
        exact htallied
      split
      · rename_i hall
        rw [if_pos hall] at hwf hexit
        split
        · rename_i hnil
          simp only [hnil, Res.fail, modify_eq_put hb] at hwf ⊢
          exact hpart _ rfl rfl rfl hwf
        · rename_i p₀ hp₀
          simp only [hp₀] at hwf hexit
          split
          · rename_i hqc
            rw [if_pos hqc, Res.ok, deliverBlk_eq_put hb] at hwf
            rw [Res.ok, deliverBlk_eq_put hb]
            exact hc.rewrite hb hwf rfl rfl fun _ => hcert b hb
          · rename_i hqc
            rw [if_neg hqc] at hexit
            exact absurd rfl hexit
      · rename_i hall
        rw [if_neg hall, Res.fail, modify_eq_put hb] at hwf
        rw [Res.fail, modify_eq_put hb]
        exact hpart _ rfl rfl rfl hwf

omit [DecidableEq H] in
theorem with_hqc (hc : c.Tallied P) {x : H} {qc : QuorumCert H Sig}
    (hwf : ({ c with hqc := (x, qc) } : Core H Sig).WellFormed P) (hqc : c.Certifies P qc) :
    ({ c with hqc := (x, qc) } : Core H Sig).Tallied P :=
  { hc with wellFormed := hwf, hqc := hqc }

/-- A valid vote is counted in `voted` and in the certificate. -/
theorem onReceiveVote (hc : c.Tallied P) {vote : Vote H Sig}
    (hvoter : vote.voter < c.config.nreplicas) (hobj : vote.cert.objHash = vote.blkHash)
    (hsig : P.verifySig vote.voter vote.cert.objHash vote.cert.sig = true) :
    (c.onReceiveVote vote).core.Tallied P := by
  unfold Core.onReceiveVote
  split
  · exact hc
  rename_i b hb
  split
  · exact hc
  rename_i hd
  split
  · exact hc
  rename_i hfew
  split
  · exact hc
  rename_i hfresh
  have hself : (b.selfQc.getD (.create c.config vote.blkHash)).objHash = vote.blkHash := by
    cases hq : b.selfQc with
    | none => rfl
    | some q => exact hc.wellFormed.selfQcHash hb hq
  have htallies (hgen : vote.blkHash ≠ P.genesisHash) :
      (b.selfQc.getD (.create c.config vote.blkHash)).Tallies P c.config b.voted := by
    cases hq : b.selfQc with
    | none =>
      rw [hc.unvoted hb hgen hq]
      exact .create P c.config vote.blkHash
    | some q => exact hc.tallies hb hgen hq
  generalize b.selfQc.getD (.create c.config vote.blkHash) = qc at *
  have hmatch : vote.cert.objHash = qc.objHash := hobj.trans hself.symm
  dsimp only
  split
  · rename_i e he
    unfold QuorumCert.addPart at he
    rw [if_neg (fun hne => hne hmatch)] at he
    split at he
    · cases he
    · cases he
  rename_i qc' hadd
  have hqc' : qc'.objHash = vote.blkHash := (QuorumCert_addPart_hash hadd).trans hself
  have hadded (hgen : vote.blkHash ≠ P.genesisHash) :
      qc'.Tallies P c.config (vote.voter :: b.voted) := by
    obtain ⟨q, hq, _, htally⟩ := (htallies hgen).addPart hvoter hfresh hmatch hsig
    rw [hadd] at hq
    rw [Except.ok.inj hq]
    exact htally
  have hnodup (hgen : vote.blkHash ≠ P.genesisHash) : (vote.voter :: b.voted).Nodup :=
    List.nodup_cons.mpr ⟨hfresh, hc.nodup hb hgen⟩
  have hcounts := modify_counts hc.wellFormed hb (by simpa using hd) (by omega) hfresh hqc'
  have hput := modify_eq_put hb fun b : Block H Sig =>
    { b with voted := vote.voter :: b.voted, selfQc := some qc' }
  have hwf := hcounts.wellFormed
  rw [hput] at hwf
  have htallied : (c.modify vote.blkHash fun b =>
      { b with voted := vote.voter :: b.voted, selfQc := some qc' }).Tallied P := by
    rw [hput]
    have hcert := hc.certified hb
    have hnew (hgen : vote.blkHash ≠ P.genesisHash) (q : QuorumCert H Sig) (hq : some qc' = some q) :
        q.Tallies P c.config (vote.voter :: b.voted) := by
      rw [← Option.some.inj hq]
      exact hadded hgen
    have hwritten : ({ c.put vote.blkHash
        { b with voted := vote.voter :: b.voted, selfQc := some qc' } with
          tails := c.tails } : Core H Sig).Tallied P :=
      hc.put hwf hnodup (fun _ hnone => nomatch hnone) hnew hcert
    exact hwritten
  split
  · rename_i hmaj
    have hfull : (c.modify vote.blkHash fun b =>
        { b with voted := vote.voter :: b.voted, selfQc := some qc' }).Certifies P qc' := by
      by_cases hgen : vote.blkHash = P.genesisHash
      · exact Or.inl (hqc'.trans hgen)
      · apply Or.inr
        apply (hadded hgen).verify hc.width (hnodup hgen)
        rw [List.length_cons, hmaj]
        exact Nat.le_refl _
    unfold updateHqc
    split
    · rename_i hlt
      apply htallied.with_hqc _ hfull
      apply hcounts.wellFormed.with_hqc _ hqc'
      rw [hcounts.sameDag.delivered]
      exact hcounts.delivered
    · exact htallied
  · exact htallied

end Tallied

/-- `on_deliver_blk` returns: the block was delivered before, or it is now. -/
theorem onDeliverBlk_ok {h : H} {b : Block H Sig} (hb : c.storage h = some b)
    (hok : c.onDeliverBlk h = .ok c') :
    c' = c ∨ ∃ height tails, c' = { c.put h (linked b height) with tails := tails } := by
  unfold onDeliverBlk at hok
  simp only [hb] at hok
  split at hok
  · exact Or.inl (congrArg Res.core hok).symm
  split at hok
  · split at hok
    · exact absurd (congrArg Res.exit hok) nofun
    rename_i p _
    split at hok
    · have hcore : c.deliverBlk h b p = c' := congrArg Res.core hok
      rw [deliverBlk_eq_put hb] at hcore
      exact Or.inr ⟨_, _, hcore.symm⟩
    · exact absurd (congrArg Res.exit hok) nofun
  · exact absurd (congrArg Res.exit hok) nofun

/-- The block that `on_propose` delivers is the stored one, with a fresh certificate of its own. -/
theorem storeProposed_delivers_put {cmds : List UInt256} {parents : List H} {p₀ : H} {extra : Bytes}
    {bnew : H} (hbnew : P.hashBlock (c.proposedData P cmds parents extra) = bnew)
    (hok : (c.storeProposed P cmds parents p₀ extra).onDeliverBlk bnew = .ok c') :
    ∃ b tails, c' = { c.put bnew b with tails := tails } ∧
      b.voted = ((c.storage bnew).map (·.voted)).getD [] ∧
      b.selfQc = some (.create c.config bnew) ∧
      (b.toBlockData = c.proposedData P cmds parents extra ∨
        ∃ b₀, c.storage bnew = some b₀ ∧ b.toBlockData = b₀.toBlockData) := by
  rw [storeProposed_eq, hbnew] at hok
  generalize hb₁ : ({ (c.storage bnew).getD (c.proposedBlock P cmds parents p₀ extra) with
    selfQc := some (.create c.config bnew) } : Block H Sig) = b₁ at hok
  generalize c.tails.filter (· ∉ parents) = tails at hok
  have hvoted : b₁.voted = ((c.storage bnew).map (·.voted)).getD [] := by
    rw [← hb₁]
    cases c.storage bnew with
    | none => rfl
    | some b₀ => rfl
  have hself : b₁.selfQc = some (.create c.config bnew) := by rw [← hb₁]
  have hdata : b₁.toBlockData = c.proposedData P cmds parents extra ∨
      ∃ b₀, c.storage bnew = some b₀ ∧ b₁.toBlockData = b₀.toBlockData := by
    rw [← hb₁]
    cases hst : c.storage bnew with
    | none => exact Or.inl rfl
    | some b₀ => exact Or.inr ⟨b₀, rfl, rfl⟩
  have hst : ({ c.put bnew b₁ with tails := tails } : Core H Sig).storage bnew = some b₁ :=
    put_self c bnew b₁
  obtain rfl | ⟨height, tails', rfl⟩ := onDeliverBlk_ok hst hok
  · exact ⟨b₁, tails, rfl, hvoted, hself, hdata⟩
  · refine ⟨linked b₁ height, tails', ?_, hvoted, hself, hdata⟩
    simp only [Core.put, Function.update_idem]

namespace Tallied

/-- `on_propose` keeps the tallies when its block has no votes yet. -/
theorem onPropose (hc : c.Tallied P) (cmds : List UInt256) {parents : List H} (extra : Bytes)
    (hpar : parents.all c.delivered = true)
    (hvoted : P.hashBlock (c.proposedData P cmds parents extra) ≠ P.genesisHash →
      ∀ b, c.storage (P.hashBlock (c.proposedData P cmds parents extra)) = some b → b.voted = []) :
    (c.onPropose P cmds parents extra).core.Tallied P := by
  have hends := onPropose_ends (R := .any H Sig) hc.wellFormed cmds parents extra rfl
    (fun _ => trivial) (fun _ _ _ => trivial) (fun _ _ _ => trivial) (fun _ _ _ _ => trivial)
  rw [hpar] at hends
  have hwf := ((hends.resolve_left fun h => nomatch h.1).onward hc.wellFormed).wellFormed
  generalize hbnew : P.hashBlock (c.proposedData P cmds parents extra) = bnew at hvoted
  unfold Core.onPropose at hwf ⊢
  split
  · exact hc
  rename_i p₀ hp₀
  simp only [hp₀, hbnew] at hwf ⊢
  obtain ⟨hno, _⟩ | ⟨c₁, hok, hgrow, hd⟩ := storeProposed_delivers hc.wellFormed hp₀ hbnew rfl
  · rw [hpar] at hno
    cases hno
  rw [hok, Res.bind_none rfl] at hwf ⊢
  obtain ⟨b, tails, rfl, hbv, hself, hdata⟩ := storeProposed_delivers_put hbnew hok
  have hnil (hgen : bnew ≠ P.genesisHash) : b.voted = [] := by
    rw [hbv]
    cases hst : c.storage bnew with
    | none => rfl
    | some b₀ => exact hvoted hgen b₀ hst
  -- a block of this hash has this content, but for genesis
  have hcert : c.Certifies P b.qc := by
    obtain hnew | ⟨b₀, hb₀, hold⟩ := hdata
    · rw [hnew]
      exact hc.hqc
    · rw [hold]
      by_cases hgen : bnew = P.genesisHash
      · obtain ⟨g, hg, _, _, _, hgd⟩ := hc.wellFormed.dag.genesis
        rw [hgen, hg] at hb₀
        rw [← Option.some.inj hb₀]
        exact hc.certified hg hgd
      · have hsame : b₀.toBlockData = c.proposedData P cmds parents extra :=
          P.hashBlock_injective ((hc.wellFormed.dag.hashed hb₀ hgen).trans hbnew.symm)
        rw [hsame]
        exact hc.hqc
  have htallied : ({ c.put bnew b with tails := tails } : Core H Sig).Tallied P := by
    apply hc.put hgrow.wellFormed
    · intro hgen
      rw [hnil hgen]
      exact List.nodup_nil
    · intro hgen _
      exact hnil hgen
    · intro hgen qc hqc
      rw [hself] at hqc
      rw [← Option.some.inj hqc, hnil hgen]
      exact .create P c.config bnew
    · exact fun _ => hcert
  apply htallied.of_sameBlocks _ hwf
  exact (update_sameBlocks hd).bind fun c => sendProposal_sameBlocks c cmds bnew

end Tallied
end Core
end LibHotStuff
