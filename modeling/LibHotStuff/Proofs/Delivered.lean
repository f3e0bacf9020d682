import LibHotStuff.Proofs.Tally

namespace LibHotStuff

open Chain

variable {H Sig : Type} [DecidableEq H] {P : Primitives H Sig}

namespace Core

variable {c c' c'' : Core H Sig} {own : H → Prop}

/-- What a step may do to the graph: nothing is forgotten, and a block that is delivered has all
that its delivery asks for. The certificate of a block of the replica's own is not checked. -/
structure Advances (P : Primitives H Sig) (own : H → Prop) (c c' : Core H Sig) : Prop where
  wellFormed : c'.WellFormed P
  id : c'.id = c.id
  config : c'.config = c.config
  stored : ∀ h, (c.storage h).isSome → (c'.storage h).isSome
  delivered : ∀ h, c.delivered h = true → c'.delivered h = true
  fresh : ∀ {h b}, c'.storage h = some b → b.delivered = true → c.delivered h = true ∨
    (∀ p ∈ b.parentHashes, c'.delivered p = true) ∧ (c'.storage b.qc.objHash).isSome ∧
      (own h ∨ c.Certifies P b.qc)

/-- What the protocol relies on when it walks along delivered blocks. -/
structure Grounded (P : Primitives H Sig) (own : H → Prop) (c : Core H Sig) : Prop where
  wellFormed : c.WellFormed P
  parents : ∀ {h b}, c.storage h = some b → h ≠ P.genesisHash → b.delivered = true →
    ∀ p ∈ b.parentHashes, c.delivered p = true
  qcStored : ∀ {h b}, c.storage h = some b → h ≠ P.genesisHash → b.delivered = true →
    (c.storage b.qc.objHash).isSome
  certified : ∀ {h b}, c.storage h = some b → h ≠ P.genesisHash → b.delivered = true →
    own h ∨ c.Certifies P b.qc

omit [DecidableEq H] in
/-- Two stored blocks of one hash have the same content. -/
theorem WellFormed.same_data (hc : c.WellFormed P) (hc' : c'.WellFormed P) {h : H}
    {b b' : Block H Sig} (hb : c.storage h = some b) (hb' : c'.storage h = some b')
    (hgen : h ≠ P.genesisHash) : b'.toBlockData = b.toBlockData :=
  P.hashBlock_injective ((hc'.dag.hashed hb' hgen).trans (hc.dag.hashed hb hgen).symm)

omit [DecidableEq H] in
theorem SameDag.isSome (hs : c.SameDag c') (x : H) :
    (c'.storage x).isSome = (c.storage x).isSome := by
  have heq := congrArg Option.isSome (hs.2 x)
  rw [Option.isSome_map, Option.isSome_map] at heq
  exact heq

namespace Advances

omit [DecidableEq H] in
theorem refl (hc : c.WellFormed P) : c.Advances P own c :=
  ⟨hc, rfl, rfl, fun _ h => h, fun _ h => h, fun hb hd => Or.inl (by rw [delivered_of hb, hd])⟩

omit [DecidableEq H] in
theorem certifies (h : c.Advances P own c') {qc : QuorumCert H Sig} :
    c'.Certifies P qc ↔ c.Certifies P qc := by
  rw [Certifies, Certifies, h.config]

omit [DecidableEq H] in
theorem mono {own' : H → Prop} (h : c.Advances P own c') (hown : ∀ x, own x → own' x) :
    c.Advances P own' c' :=
  { h with fresh := fun hb hd => (h.fresh hb hd).imp_right fun hnew =>
      ⟨hnew.1, hnew.2.1, hnew.2.2.imp_left (hown _)⟩ }

omit [DecidableEq H] in
/-- A delivered block is grounded afterwards, too. -/
theorem grounded (h : c.Advances P own c') (hc : c.Grounded P own) : c'.Grounded P own := by
  have hold {x : H} {b' : Block H Sig} (hb' : c'.storage x = some b') (hgen : x ≠ P.genesisHash)
      (hd : c.delivered x = true) : ∃ b, c.storage x = some b ∧ b.delivered = true ∧
        b'.toBlockData = b.toBlockData := by
    obtain ⟨b, hb, hbd⟩ := stored_of_delivered hd
    exact ⟨b, hb, hbd, hc.wellFormed.same_data h.wellFormed hb hb' hgen⟩
  refine ⟨h.wellFormed, ?_, ?_, ?_⟩
  · intro x b' hb' hgen hd p hp
    obtain hdel | hnew := h.fresh hb' hd
    · obtain ⟨b, hb, hbd, hdata⟩ := hold hb' hgen hdel
      rw [hdata] at hp
      exact h.delivered p (hc.parents hb hgen hbd p hp)
    · exact hnew.1 p hp
  · intro x b' hb' hgen hd
    obtain hdel | hnew := h.fresh hb' hd
    · obtain ⟨b, hb, hbd, hdata⟩ := hold hb' hgen hdel
      rw [hdata]
      exact h.stored _ (hc.qcStored hb hgen hbd)
    · exact hnew.2.1
  · intro x b' hb' hgen hd
    rw [h.certifies]
    obtain hdel | hnew := h.fresh hb' hd
    · obtain ⟨b, hb, hbd, hdata⟩ := hold hb' hgen hdel
      rw [hdata]
      exact hc.certified hb hgen hbd
    · exact hnew.2.2

omit [DecidableEq H] in
theorem trans (hc : c.WellFormed P) (h : c.Advances P own c') (h' : c'.Advances P own c'') :
    c.Advances P own c'' := by
  refine ⟨h'.wellFormed, h'.id.trans h.id, h'.config.trans h.config,
    fun x hx => h'.stored x (h.stored x hx), fun x hx => h'.delivered x (h.delivered x hx),
    fun {x b''} hb'' hd => ?_⟩
  by_cases hgen : x = P.genesisHash
  · rw [hgen]
    exact Or.inl hc.dag.delivered_genesis
  obtain hdel | ⟨hpar, hqc, hcert⟩ := h'.fresh hb'' hd
  · obtain ⟨b', hb', hbd⟩ := stored_of_delivered hdel
    rw [h.wellFormed.same_data h'.wellFormed hb' hb'' hgen]
    apply (h.fresh hb' hbd).imp_right
    intro hnew
    exact ⟨fun p hp => h'.delivered p (hnew.1 p hp), h'.stored _ hnew.2.1, hnew.2.2⟩
  · rw [h.certifies] at hcert
    exact Or.inr ⟨hpar, hqc, hcert⟩

omit [DecidableEq H] in
/-- No block is delivered. -/
theorem of_delivered (hwf : c'.WellFormed P) (hid : c'.id = c.id) (hconfig : c'.config = c.config)
    (hstored : ∀ h, (c.storage h).isSome → (c'.storage h).isSome)
    (hdel : ∀ h, c'.delivered h = c.delivered h) : c.Advances P own c' := by
  refine ⟨hwf, hid, hconfig, hstored, fun x hd => ?_, fun {x b} hb hd => Or.inl ?_⟩
  · rw [hdel, hd]
  · rw [← hdel, delivered_of hb, hd]

omit [DecidableEq H] in
theorem of_sameDag (hs : c.SameDag c') (hwf : c'.WellFormed P) (hid : c'.id = c.id)
    (hconfig : c'.config = c.config) : c.Advances P own c' := by
  refine of_delivered hwf hid hconfig (fun x hx => ?_) fun _ => hs.delivered
  rw [hs.isSome]
  exact hx

omit [DecidableEq H] in
theorem of_sameBlocks (hs : c.SameBlocks c') (hwf : c'.WellFormed P) : c.Advances P own c' :=
  of_sameDag hs.sameDag hwf hs.id hs.config

theorem addBlk (hc : c.WellFormed P) (d : BlockData H Sig) :
    c.Advances P own (c.addBlk P d.fetched) := by
  obtain ⟨hg, hdel⟩ := addBlk_grows hc d
  refine of_delivered hg.wellFormed hg.quiet.id hg.quiet.config (fun x hx => ?_) hdel
  unfold Core.addBlk
  split
  · exact hx
  · change (Function.update c.storage (P.hashBlock d) (some d.fetched) x).isSome = true
    by_cases heq : x = P.hashBlock d
    · subst heq
      rw [Function.update_self]
      rfl
    · rw [Function.update_of_ne heq]
      exact hx

end Advances

theorem modify_stored (c : Core H Sig) (h x : H) (f : Block H Sig → Block H Sig) :
    ((c.modify h f).storage x).isSome = (c.storage x).isSome := by
  change (Function.update c.storage h _ x).isSome = _
  by_cases heq : x = h
  · subst heq
    rw [Function.update_self, Option.isSome_map]
  · rw [Function.update_of_ne heq]

/-- `on_deliver_blk` stores and forgets nothing. -/
theorem onDeliverBlk_stored (c : Core H Sig) (blk x : H) :
    ((c.onDeliverBlk blk).core.storage x).isSome = (c.storage x).isSome := by
  unfold Core.onDeliverBlk
  split
  · rfl
  split
  · rfl
  split
  · split
    · exact modify_stored c blk x _
    · rename_i p₀ _
      split
      · have hdone := modify_stored c blk x fun b => { b with
          parents := b.parentHashes, height := c.height p₀ + 1, qcRef := some b.qc.objHash,
          delivered := true }
        exact hdone
      · exact modify_stored c blk x _
  · exact modify_stored c blk x _

/-- `async_deliver_blk` delivers a block when all that it waits for has arrived. -/
theorem onDeliverBlk_advances (hc : c.WellFormed P) {blk : H}
    (hd : Replica.deliverable P c blk = true) : c.Advances P own (c.onDeliverBlk blk).core := by
  have hg := (deliver_grows hc hd).1
  refine ⟨hg.wellFormed, hg.quiet.id, hg.quiet.config, fun x hx => by rwa [onDeliverBlk_stored],
    hg.quiet.delivered, fun {x b'} hb' hbd => ?_⟩
  have hx : (c.onDeliverBlk blk).core.delivered x = true := by rw [delivered_of hb', hbd]
  by_cases hold : c.delivered x = true
  · exact Or.inl hold
  · obtain hdel | rfl := hg.delivered x hx
    · exact Or.inl hdel
    · right
      have hgen : x ≠ P.genesisHash := by
        intro hgen
        rw [hgen, hc.dag.delivered_genesis] at hold
        exact hold rfl
      unfold Replica.deliverable at hd
      cases hb : c.storage x with
      | none => simp [hb] at hd
      | some b =>
        simp only [hb, Bool.and_eq_true, Bool.or_eq_true, decide_eq_true_eq, beq_iff_eq,
          hc.dag.b0, List.all_eq_true] at hd
        obtain ⟨⟨hcert, hqc⟩, hpar⟩ := hd
        rw [hc.same_data hg.wellFormed hb hb' hgen]
        refine ⟨fun p hp => hg.quiet.delivered p (hpar p hp), ?_, Or.inr hcert⟩
        rw [onDeliverBlk_stored]
        exact hqc

theorem onReceiveVote_advances (hc : c.WellFormed P) (vote : Vote H Sig) :
    c.Advances P own (c.onReceiveVote vote).core := by
  have hcounts {c' : Core H Sig} (hk : c.Counts P vote c') : c.Advances P own c' := by
    have hid := congrArg Core.id hk.rest
    have hconfig := congrArg Core.config hk.rest
    exact .of_sameDag hk.sameDag hk.wellFormed hid hconfig
  have hwf := (onReceiveVote_onward hc vote).1.wellFormed
  obtain h | h | ⟨c', hk, h | h | ⟨_, hqc, outs, h, _⟩⟩ := onReceiveVote_cases hc vote
  · rw [h]
    exact .refl hc
  · rw [h]
    exact .refl hc
  · rw [h]
    exact hcounts hk
  · rw [h]
    exact hcounts hk
  · rw [h] at hwf ⊢
    have ha := hcounts hk
    exact ⟨hwf, ha.id, ha.config, ha.stored, ha.delivered, ha.fresh⟩

/-- `on_propose` delivers at most the block that it builds. -/
theorem onPropose_advances (hc : c.WellFormed P) (cmds : List UInt256) {parents : List H}
    (extra : Bytes) (hpar : parents.all c.delivered = true)
    (hown : own (P.hashBlock (c.proposedData P cmds parents extra))) :
    c.Advances P own (c.onPropose P cmds parents extra).core := by
  have hends := onPropose_ends (R := .any H Sig) hc cmds parents extra rfl
    (fun _ => trivial) (fun _ _ _ => trivial) (fun _ _ _ => trivial) (fun _ _ _ _ => trivial)
  rw [hpar] at hends
  have hwf := ((hends.resolve_left fun h => nomatch h.1).onward hc).wellFormed
  generalize hbnew : P.hashBlock (c.proposedData P cmds parents extra) = bnew at hown
  unfold Core.onPropose at hwf ⊢
  split
  · exact .refl hc
  rename_i p₀ hp₀
  simp only [hp₀, hbnew] at hwf ⊢
  obtain ⟨hno, _⟩ | ⟨c₁, hok, hgrow, hd⟩ := storeProposed_delivers hc hp₀ hbnew rfl
  · rw [hpar] at hno
    cases hno
  rw [hok, Res.bind_none rfl] at hwf ⊢
  have hadv : c.Advances P own c₁ := by
    obtain ⟨b, tails, hc₁, _, _, hdata⟩ := storeProposed_delivers_put hbnew hok
    have hst : c₁.storage = Function.update c.storage bnew (some b) := by
      rw [hc₁]
      rfl
    have hstored (x : H) (hx : (c.storage x).isSome) : (c₁.storage x).isSome := by
      rw [hst]
      by_cases heq : x = bnew
      · subst heq
        rw [Function.update_self]
        rfl
      · rw [Function.update_of_ne heq]
        exact hx
    refine ⟨hgrow.wellFormed, hgrow.quiet.id, hgrow.quiet.config, hstored, hgrow.quiet.delivered,
      fun {x b'} hb' hbd => ?_⟩
    have hx : c₁.delivered x = true := by rw [delivered_of hb', hbd]
    by_cases hold : c.delivered x = true
    · exact Or.inl hold
    obtain hdel | rfl := hgrow.delivered x hx
    · exact Or.inl hdel
    right
    have hgen : x ≠ P.genesisHash := by
      intro hgen
      rw [hgen, hc.dag.delivered_genesis] at hold
      exact hold rfl
    have hsame : b'.toBlockData = c.proposedData P cmds parents extra :=
      P.hashBlock_injective ((hgrow.wellFormed.dag.hashed hb' hgen).trans hbnew.symm)
    have hqc : (c.storage (c.proposedData P cmds parents extra).qc.objHash).isSome := by
      obtain ⟨b, hb, _⟩ := stored_of_delivered hc.hqcDelivered
      rw [Core.proposedData, hc.hqcCert, hb]
      rfl
    rw [hsame]
    refine ⟨fun p hp => hgrow.quiet.delivered p ?_, hstored _ hqc, Or.inl hown⟩
    exact List.all_eq_true.mp hpar p hp
  apply hadv.trans hc
  apply Advances.of_sameBlocks _ hwf
  exact (update_sameBlocks hd).bind fun c => sendProposal_sameBlocks c cmds bnew

end Core

namespace Replica

variable {nd nd' : Replica H Sig} {own : H → Prop}

/-- The block that `on_propose` builds. -/
def builds (P : Primitives H Sig) (nd : Replica H Sig) : Event H Sig → Option H
  | .propose _ _ cmds parents extra => some (P.hashBlock (nd.core.proposedData P cmds parents extra))
  | _ => none

theorem absorb_core (nd : Replica H Sig) (ord : List H) (rest : List (Task H Sig)) (res : Res H Sig) :
    (nd.absorb ord rest res).core = res.core := by
  unfold Replica.absorb
  dsimp only
  split
  · rfl
  · rfl
  · rfl

/-- A call of the handler leaves the core alone, unless the replica counts its own vote. -/
theorem runTask_core {ord : List H} (h : nd.runTask ord false = some nd') : nd'.core = nd.core := by
  unfold Replica.runTask at h
  split at h
  · cases h
  · split at h
    · rw [← Option.some.inj h]
    · rw [← Option.some.inj h]
  · rw [← Option.some.inj h]
  · rw [← Option.some.inj h]
  · rw [if_neg Bool.noConfusion] at h
    rw [← Option.some.inj h]
  · rw [← Option.some.inj h]
  · rw [← Option.some.inj h]

/-- Every event keeps the graph in order. -/
theorem handle_advances (hc : nd.core.WellFormed P) {e : Event H Sig}
    (hown : ∀ x ∈ nd.builds P e, own x) (hstep : nd.handle P e = some nd') :
    nd.core.Advances P own nd'.core := by
  cases e with
  | fetch r src data =>
    simp only [Replica.handle, Option.ite_none_right_eq_some, Option.some.injEq] at hstep
    obtain ⟨_, rfl⟩ := hstep
    exact .addBlk hc data
  | deliver r blk =>
    simp only [Replica.handle, Option.ite_none_right_eq_some, Bool.and_eq_true, Option.some.injEq]
      at hstep
    obtain ⟨⟨_, hd⟩, rfl⟩ := hstep
    rw [absorb_core]
    exact Core.onDeliverBlk_advances hc hd
  | receiveProposal r src ord prop =>
    simp only [Replica.handle, Option.ite_none_right_eq_some, Option.some.injEq] at hstep
    obtain ⟨_, rfl⟩ := hstep
    rw [absorb_core]
    exact .of_sameBlocks (Core.onReceiveProposal_sameBlocks nd.core prop)
      ((Core.onReceiveProposal_ends_any hc prop).onward hc).wellFormed
  | receiveVote r ord vote =>
    simp only [Replica.handle, Option.ite_none_right_eq_some, Option.some.injEq] at hstep
    obtain ⟨_, rfl⟩ := hstep
    rw [absorb_core]
    exact Core.onReceiveVote_advances hc vote
  | receiveSlice r src hash slice =>
    simp only [Replica.handle, Option.ite_none_right_eq_some] at hstep
    obtain ⟨_, hstep⟩ := hstep
    split at hstep
    · obtain rfl := Option.some.inj hstep
      rw [absorb_core]
      apply Core.Advances.of_sameBlocks (Core.onReceiveSlice_sameBlocks nd.core slice)
      obtain hs | hs | ⟨_, _, sc, _, hs⟩ := Core.onReceiveSlice_eq (P := P) nd.core slice
      · rw [hs]
        exact hc
      · rw [hs]
        exact hc
      · rw [hs]
        exact hc.with_shards sc
    · obtain rfl := Option.some.inj hstep
      exact .refl hc
  | propose r ord cmds parents extra =>
    simp only [Replica.handle, Option.ite_none_right_eq_some, Bool.and_eq_true, Option.some.injEq]
      at hstep
    obtain ⟨⟨_, hpar⟩, rfl⟩ := hstep
    rw [absorb_core]
    exact Core.onPropose_advances hc cmds extra hpar (hown _ rfl)
  | asyncQcFinish r blk =>
    simp only [Replica.handle, Option.ite_none_right_eq_some, Option.some.injEq] at hstep
    obtain ⟨_, rfl⟩ := hstep
    exact .refl hc
  | runTask r ord toSelf =>
    simp only [Replica.handle] at hstep
    split at hstep
    · cases hstep
    have hquiet (hrun : nd.runTask ord false = some nd') : nd.core.Advances P own nd'.core := by
      rw [runTask_core hrun]
      exact .refl hc
    cases toSelf with
    | false => exact hquiet hstep
    | true =>
      obtain hrun | ⟨last, vote, rest, htasks, rfl⟩ := Replica.runTask_self hstep
      · exact hquiet hrun
      · rw [absorb_core]
        exact Core.onReceiveVote_advances hc vote

end Replica
end LibHotStuff
