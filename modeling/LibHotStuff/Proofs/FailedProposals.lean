import LibHotStuff.Proofs.ReplicaRuns

namespace LibHotStuff

variable {H Sig : Type} [DecidableEq H] {P : Primitives H Sig}

namespace Core

variable {c : Core H Sig} {cmds : List UInt256} {parents : List H} {p₀ bnew : H} {extra : Bytes}

/-- The tails when a block has been delivered on some parents. -/
def tailsWith (c : Core H Sig) (parents : List H) (bnew : H) : List H :=
  if c.delivered bnew then c.tails.filter (· ∉ parents)
  else (c.tails.filter (· ∉ parents)).insert bnew

/-- `on_propose` up to `update`: its block is stored and delivered, with an empty certificate. -/
theorem beforeOwnUpdate_eq (hc : c.WellFormed P) (hp₀ : parents.head? = some p₀)
    (hpar : parents.all c.delivered = true)
    (hbnew : P.hashBlock (c.proposedData P cmds parents extra) = bnew) :
    ∃ b, (c.storeProposed P cmds parents p₀ extra).onDeliverBlk bnew =
        .ok (c.beforeOwnUpdate P cmds parents extra) ∧
      c.beforeOwnUpdate P cmds parents extra =
        { c.put bnew b with tails := c.tailsWith parents bnew } ∧
      b.delivered = true ∧ b.selfQc = some (.create c.config bnew) ∧ b.voted = c.voters bnew ∧
        b.decision = c.decided bnew := by
  have hbefore : c.beforeOwnUpdate P cmds parents extra =
      ((c.storeProposed P cmds parents p₀ extra).onDeliverBlk bnew).core := by
    rw [beforeOwnUpdate, hp₀, hbnew]
  obtain ⟨hnot, _⟩ | ⟨c', hok, _, hdel⟩ := storeProposed_delivers hc hp₀ hbnew rfl
  · rw [hpar] at hnot
    cases hnot
  rw [hbefore, hok]
  have hstore : c.storeProposed P cmds parents p₀ extra = _ := storeProposed_eq
  rw [hbnew] at hstore
  generalize c.storeProposed P cmds parents p₀ extra = c₁ at hok hstore
  generalize hb : ({ (c.storage bnew).getD (c.proposedBlock P cmds parents p₀ extra) with
    selfQc := some (.create c.config bnew) } : Block H Sig) = b at hstore
  have hst : c₁.storage bnew = some b := by
    rw [hstore]
    exact put_self c bnew b
  have hkept : b.selfQc = some (.create c.config bnew) ∧ b.voted = c.voters bnew ∧
      b.decision = c.decided bnew := by
    rw [← hb, voters, decided]
    cases c.storage bnew <;> exact ⟨rfl, rfl, rfl⟩
  have hbd : b.delivered = c.delivered bnew := by
    rw [← hb, delivered]
    cases c.storage bnew <;> rfl
  unfold onDeliverBlk at hok
  simp only [hst] at hok
  cases hd : c.delivered bnew with
  | true =>
    rw [hbd, hd, if_pos rfl] at hok
    obtain rfl : c₁ = c' := congrArg Res.core hok
    refine ⟨b, rfl, ?_, by rw [hbd, hd], hkept⟩
    change c₁ = _
    rw [hstore, tailsWith, hd, if_pos rfl]
  | false =>
    rw [hbd, hd, if_neg (by simp)] at hok
    split at hok
    swap
    · exact absurd (congrArg Res.exit hok) (by simp [Res.ok, Res.fail])
    split at hok
    · exact absurd (congrArg Res.exit hok) (by simp [Res.ok, Res.fail])
    split at hok
    swap
    · exact absurd (congrArg Res.exit hok) (by simp [Res.ok, Res.fail])
    rename_i p₁ _ _
    obtain rfl : c₁.deliverBlk bnew b p₁ = c' := congrArg Res.core hok
    have hparents : b.parentHashes = parents := by
      rw [← hb]
      cases hst₀ : c.storage bnew with
      | none => rfl
      | some b₀ =>
        have hne : bnew ≠ P.genesisHash := by
          rintro rfl
          rw [hc.dag.delivered_genesis] at hd
          cases hd
        have hdata := P.hashBlock_injective ((hc.dag.hashed hst₀ hne).trans hbnew.symm)
        exact congrArg BlockData.parentHashes hdata
    refine ⟨linked b (c₁.height p₁ + 1), rfl, ?_, rfl, hkept⟩
    change c₁.deliverBlk bnew b p₁ = _
    rw [deliverBlk_eq_put hst, hparents]
    generalize linked b (c₁.height p₁ + 1) = b'
    rw [hstore, tailsWith, hd]
    simp [put, List.filter_filter]

theorem beforeOwnUpdate_grows (hc : c.WellFormed P) (hp₀ : parents.head? = some p₀)
    (hpar : parents.all c.delivered = true)
    (hbnew : P.hashBlock (c.proposedData P cmds parents extra) = bnew) :
    c.Grows P (c.beforeOwnUpdate P cmds parents extra) bnew ∧
      (c.beforeOwnUpdate P cmds parents extra).delivered bnew = true := by
  obtain ⟨hnot, _⟩ | ⟨c', hok, hgrow, hd⟩ := storeProposed_delivers hc hp₀ hbnew rfl
  · rw [hpar] at hnot
    cases hnot
  · have heq : c.beforeOwnUpdate P cmds parents extra = c' := by
      rw [beforeOwnUpdate, hp₀, hbnew]
      exact congrArg Res.core hok
    rw [heq]
    exact ⟨hgrow, hd⟩

/-- What `on_propose` leaves when it throws: its block is stored and delivered, with no votes and an
empty certificate when it is a new one, the parents are no tails, and `update` may have committed;
nothing has been sent. -/
structure FailedProposal (c : Core H Sig) (parents : List H) (bnew : H) (r : Res H Sig) : Prop where
  hqc : r.core.hqc = c.hqc
  vheight : r.core.vheight = c.vheight
  tasks : r.tasks = []
  outs : r.outs.all Output.ofCommit = true
  tails : r.core.tails = c.tailsWith parents bnew
  others : ∀ x, x ≠ bnew →
    (r.core.storage x).map Block.undecided = (c.storage x).map Block.undecided
  own : ∃ b, r.core.storage bnew = some b ∧ b.delivered = true ∧
    (c.storage bnew = none → b.selfQc = some (.create c.config bnew) ∧ b.voted = [])
  decided : ∀ x, c.decided x = true → r.core.decided x = true

/-- No exception leaves `on_receive_proposal` for an own proposal. -/
theorem onReceiveProposal_own_exit (hc : c.WellFormed P) {prop : Proposal H}
    (hid : prop.proposer = c.id) (e : Error) :
    (c.onReceiveProposal P prop).exit ≠ some (.throw e) := by
  have ok {c₀ : Core H Sig} (heq : c.onReceiveSlice P prop.slice = .ok c₀) :
      (c.onReceiveProposal P prop).exit ≠ some (.throw e) := by
    obtain ⟨sc, rfl⟩ := onReceiveSlice_ok heq
    have hid₀ : prop.proposer = ({ c with sc := sc } : Core H Sig).id := hid
    have hvote := (castVote_exit (hc.with_shards (P := P) sc) prop).2
    obtain hres | hres := onReceiveProposal_eq heq
    · simp [hres, Res.fail]
    · rw [hres, if_pos hid₀, Res.bind_none rfl]
      dsimp only [Res.ok]
      rw [hvote]
      simp
  obtain heq | heq | ⟨_, _, _, _, heq⟩ := onReceiveSlice_eq (P := P) c prop.slice
  · exact ok heq
  · obtain hres | hres := onReceiveProposal_fault heq
    · simp [hres, Res.fail]
    · simp [hres, Res.fail]
  · exact ok heq

/-- An exception out of the end of `on_propose` comes before its slice is taken in. -/
theorem sendProposal_throws (hc : c.WellFormed P) {e : Error}
    (hthrow : (c.sendProposal P cmds bnew).exit = some (.throw e)) :
    c.sendProposal P cmds bnew = .fail c (.throw e) := by
  obtain ⟨f, _, heq⟩ | ⟨_, prop, _, _, hid, _, _, heq⟩ := sendProposal_cases (P := P) c cmds bnew
  · rw [heq] at hthrow ⊢
    obtain rfl := Option.some.inj hthrow
    rfl
  · exfalso
    rw [heq] at hthrow
    cases hexit : (c.onReceiveProposal P prop).exit with
    | none =>
      rw [Res.bind_none hexit] at hthrow
      cases hthrow
    | some f =>
      rw [Res.bind_some hexit] at hthrow
      exact onReceiveProposal_own_exit hc hid e hthrow

/-- The only exception of `update` is "safety breached". -/
theorem update_throws {nblk : H} (hc : c.WellFormed P) (hd : c.delivered nblk = true) {e : Error}
    (hthrow : (c.update P nblk).exit = some (.throw e)) : e = .safetyBreached := by
  obtain ⟨c', outs, hprep, ⟨_, h⟩ | ⟨f, hfails, h⟩ | ⟨_, _, _, _, _, h⟩ |
    ⟨_, r, _, hto, ⟨_, h⟩ | ⟨f, hexit, h⟩⟩⟩ := update_steps hc hd
  · rw [h] at hthrow
    cases hthrow
  · rw [h] at hthrow
    exact absurd (Option.some.inj hthrow) (hfails.decode.ne_throw e)
  · rw [h] at hthrow
    exact (Fault.throw.inj (Option.some.inj hthrow)).symm
  · rw [h] at hthrow
    cases hthrow
  · rw [h] at hthrow
    obtain rfl : f = .throw e := Option.some.inj hthrow
    obtain ⟨x, hx⟩ := hto.committed.exit _ hexit
    exact absurd hx ((hprep.wellFormed hc).futuresReturn x e)

omit [DecidableEq H] in
/-- The block of `on_propose` carries the certificate for `hqc`. -/
theorem proposed_justify (hc : c.WellFormed P)
    (hbnew : P.hashBlock (c.proposedData P cmds parents extra) = bnew) (hne : bnew ≠ P.genesisHash) :
    P.justify bnew = c.hqc.1 := by
  rw [Primitives.justify, P.content_eq hbnew hne]
  exact hc.hqcCert

/-- `update` for the own block goes on from the state in which the block is stored. -/
theorem FailedProposal.of_update {b : Block H Sig} {c₁ : Core H Sig} {r : Res H Sig}
    (heq : c₁ = { c.put bnew b with tails := c.tailsWith parents bnew })
    (hb : b.delivered = true ∧ b.selfQc = some (.create c.config bnew) ∧ b.voted = c.voters bnew)
    (hsame : c₁.SameBlocks r.core)
    (hcore : r.core.hqc = c.hqc ∧ r.core.vheight = c.vheight ∧ r.core.tails = c₁.tails)
    (hsent : r.tasks = [] ∧ r.outs.all Output.ofCommit = true)
    (hdec : ∀ x, c.decided x = true → r.core.decided x = true) : c.FailedProposal parents bnew r where
  hqc := hcore.1
  vheight := hcore.2.1
  tasks := hsent.1
  outs := hsent.2
  tails := by rw [hcore.2.2, heq]
  others x hx := by
    rw [hsame.blocks, heq]
    exact congrArg _ (put_of_ne c b hx)
  own := by
    have hst : c₁.storage bnew = some b := by
      rw [heq]
      exact put_self c bnew b
    have hblock := hsame.blocks bnew
    rw [hst] at hblock
    obtain ⟨b', hb', _⟩ := Option.map_eq_some_iff.mp hblock
    obtain ⟨b₀, d, hb₀, rfl⟩ := hsame.stored hb'
    obtain rfl : b = b₀ := Option.some.inj (hst.symm.trans hb₀)
    refine ⟨_, hb', hb.1, fun hnew => ⟨hb.2.1, ?_⟩⟩
    have hnone : c.voters bnew = [] := by
      rw [voters, hnew]
      rfl
    exact hb.2.2.trans hnone
  decided := hdec

/-- `update` for the own block neither moves `hqc` nor does anything but commit. -/
theorem beforeOwnVote_kept (hc : c.WellFormed P) (hp₀ : parents.head? = some p₀)
    (hpar : parents.all c.delivered = true)
    (hbnew : P.hashBlock (c.proposedData P cmds parents extra) = bnew) {c₁ : Core H Sig}
    (hc₁ : c.beforeOwnUpdate P cmds parents extra = c₁) (hexit : (c₁.update P bnew).exit = none) :
    c.FailedProposal parents bnew (c₁.update P bnew) ∧ (c₁.update P bnew).core.WellFormed P := by
  obtain ⟨b, hok, heq, hbd, hself, hvoted, _⟩ := beforeOwnUpdate_eq hc hp₀ hpar hbnew
  obtain ⟨hgrow, hd⟩ := beforeOwnUpdate_grows hc hp₀ hpar hbnew
  rw [hc₁] at hok heq hgrow hd
  have hsame : c₁.SameBlocks (c₁.update P bnew).core := update_sameBlocks hd
  obtain ⟨c', outs, hprep, hcases⟩ := update_steps hgrow.wellFormed hd
  have hhqc : c'.hqc = c.hqc ∧ outs = [] := by
    obtain ⟨hkept, houts⟩ | ⟨_, hlt, _, _⟩ := hprep.hqc
    · exact ⟨hkept.trans hgrow.quiet.hqc, houts⟩
    · exfalso
      by_cases hne : bnew = P.genesisHash
      · rw [hne, P.justify_genesis, hgrow.wellFormed.dag.height_genesis] at hlt
        omega
      · rw [proposed_justify hc hbnew hne, hgrow.quiet.hqc] at hlt
        omega
  have hvheight : c'.vheight = c.vheight := by rw [hprep.rest, hgrow.quiet.vheight]
  have htails : c'.tails = c₁.tails := by rw [hprep.rest]
  have hdec (x : H) : c'.decided x = c.decided x := by rw [hprep.decided, hgrow.quiet.decided]
  have hc' := hprep.wellFormed hgrow.wellFormed
  obtain ⟨_, hres⟩ | ⟨_, _, hres⟩ | ⟨_, _, _, _, _, hres⟩ |
    ⟨b', r', done, hto, ⟨_, hres⟩ | ⟨_, _, hres⟩⟩ := hcases
  · rw [hres] at hsame ⊢
    refine ⟨.of_update heq ⟨hbd, hself, hvoted⟩ hsame ⟨hhqc.1, hvheight, htails⟩ ⟨rfl, ?_⟩
      fun x hx => by rw [hdec, hx], hc'⟩
    rw [hhqc.2]
    rfl
  · rw [hres] at hexit
    cases hexit
  · rw [hres] at hexit
    cases hexit
  · have hcom := hto.committed
    obtain ⟨hdelivered, hqueue⟩ := hto.queue_delivered hc'
    rw [hres] at hsame ⊢
    refine ⟨.of_update heq ⟨hbd, hself, hvoted⟩ hsame ⟨hcom.same.hqc.trans hhqc.1,
      hcom.same.vheight.trans hvheight, hcom.same.tails.trans htails⟩ ⟨rfl, ?_⟩ fun x hx => ?_, ?_⟩
    · rw [hhqc.2]
      exact hcom.outs
    · exact (hcom.decided x).mpr (Or.inl (by rw [hdec, hx]))
    · exact (hcom.wellFormed hc' hqueue).with_exec (by rw [hcom.sameDag.delivered, hdelivered])
  · rw [hres] at hexit
    cases hexit

/-- What is left of a call of `on_propose` that throws "encode error" or "new block should be higher
than vheight". -/
theorem onPropose_throws (hc : c.WellFormed P) (hne : parents ≠ [])
    (hpar : parents.all c.delivered = true) {e : Error}
    (he : e = .encodeError ∨ e = .notHigherThanVheight)
    (hthrow : (c.onPropose P cmds parents extra).exit = some (.throw e)) :
    c.FailedProposal parents (P.hashBlock (c.proposedData P cmds parents extra))
        (c.onPropose P cmds parents extra) ∧
      (c.onPropose P cmds parents extra).core = c.beforeOwnVote P cmds parents extra := by
  obtain ⟨p₀, rest, rfl⟩ := List.exists_cons_of_ne_nil hne
  have hp₀ : (p₀ :: rest).head? = some p₀ := rfl
  generalize hbnew : P.hashBlock (c.proposedData P cmds (p₀ :: rest) extra) = bnew
  obtain ⟨_, hok, _⟩ := beforeOwnUpdate_eq hc hp₀ hpar hbnew
  obtain ⟨hgrow, hd⟩ := beforeOwnUpdate_grows hc hp₀ hpar hbnew
  have hkept := beforeOwnVote_kept hc hp₀ hpar hbnew rfl
  have heq : c.onPropose P cmds (p₀ :: rest) extra =
      ((c.beforeOwnUpdate P cmds (p₀ :: rest) extra).update P bnew).bind fun c =>
        c.sendProposal P cmds bnew := by
    unfold onPropose
    simp only [hp₀, hbnew]
    rw [hok, Res.bind_none rfl]
    simp only [Res.ok, List.nil_append]
  rw [heq] at hthrow ⊢
  rw [beforeOwnVote, hbnew]
  cases hexit : ((c.beforeOwnUpdate P cmds (p₀ :: rest) extra).update P bnew).exit with
  | none =>
    rw [Res.bind_none hexit] at hthrow ⊢
    obtain ⟨hfailed, hwf⟩ := hkept hexit
    rw [sendProposal_throws hwf hthrow]
    refine ⟨?_, rfl⟩
    exact { hfailed with
      tasks := by simp [Res.fail, hfailed.tasks], outs := by simp [Res.fail, hfailed.outs] }
  | some f =>
    exfalso
    rw [Res.bind_some hexit] at hthrow
    obtain rfl := update_throws hgrow.wellFormed hd hthrow
    simp at he

end Core

/-- Failed proposals send nothing: in every state of a run of a replica, whatever its peers send,
`on_propose` on delivered parents that throws leaves `hqc`, `vheight` and the other blocks (but for
their decisions) as they were, and has sent neither a message nor a vote. Its block is stored and
delivered, with an empty certificate when it is a new one, its parents are no tails, and `update` has
gone through. -/
theorem Replica.failed_proposal {nd : Replica H Sig} {dummy : QuorumCert H Sig}
    {replicas : List NetAddr} {listenAddr : NetAddr} {id : ReplicaID}
    (h : nd.Runs P dummy replicas listenAddr id fun _ _ => True) {cmds : List UInt256}
    {parents : List H} {extra : Bytes} (hne : parents ≠ [])
    (hpar : parents.all nd.core.delivered = true) {e : Error}
    (he : e = .encodeError ∨ e = .notHigherThanVheight)
    (hthrow : (nd.core.onPropose P cmds parents extra).exit = some (.throw e)) :
    nd.core.FailedProposal parents (P.hashBlock (nd.core.proposedData P cmds parents extra))
        (nd.core.onPropose P cmds parents extra) ∧
      (nd.core.onPropose P cmds parents extra).core = nd.core.beforeOwnVote P cmds parents extra := by
  exact Core.onPropose_throws h.wellFormed hne hpar he hthrow

namespace Concrete

/-- A block of replica 3, and one that replica 0 makes at the same height. -/
def belatedBlocks : List (BlockData Nat Signature) :=
  [emptyBlock 0 (cert [] 0) 0, ownBlock 0 (cert [] 0) 9]

/-- Replica 0 votes for the block of replica 3. -/
def voteFirst : List (Event Nat Signature) := adopt belatedBlocks 3 0 1 ++ offer belatedBlocks 0 1

/-- What a call of `on_propose` does with the block: how it ends, and the tails and the block. -/
def proposesBelated (c : Core Nat Signature) : Option Fault × (List Nat × Bool) × (List Nat × Bool) :=
  let r := c.onPropose (primitives belatedBlocks [[]]) [] [0] [9]
  (r.exit, (c.tails, (c.storage 2).isSome), (r.core.tails, (r.core.storage 2).isSome))

set_option maxRecDepth 100000 in
set_option synthInstance.maxSize 1024 in
theorem belated_run :
    (Transition.runBy (Replica.handle (primitives belatedBlocks [[]])) (fun _ _ => True)
      (Replica.init (primitives belatedBlocks [[]]) noCert [10, 11, 12, 13] 10 0) voteFirst).map
        (fun nd => (nd.core.delivered 0, nd.core.vheight, proposesBelated nd.core)) =
      some (true, 1, some (.throw .notHigherThanVheight), ([1], false), ([2, 1], true)) := by
  decide +kernel

/-- Replica 0 has voted at the height of its block: `vheight` and `hqc` stay. -/
theorem failed_proposal_belated : ∃ nd : Replica Nat Signature,
    (nd.core.onPropose (primitives belatedBlocks [[]]) [] [0] [9]).exit =
        some (.throw .notHigherThanVheight) ∧
      (nd.core.onPropose (primitives belatedBlocks [[]]) [] [0] [9]).core.vheight = nd.core.vheight ∧
      (nd.core.onPropose (primitives belatedBlocks [[]]) [] [0] [9]).core.hqc = nd.core.hqc := by
  obtain ⟨nd, hreach, hseen⟩ := Transition.runBy_map_reaches belated_run
  simp only [proposesBelated, Prod.mk.injEq] at hseen
  obtain ⟨hd, _, hexit, _⟩ := hseen
  have hfailed := (Replica.failed_proposal hreach (by decide) (by simp [hd]) (Or.inr rfl) hexit).1
  exact ⟨nd, hexit, hfailed.vheight, hfailed.hqc⟩

/-- But its block is stored and a tail, which it was not before. -/
theorem failed_proposal_stored : ∃ nd : Replica Nat Signature,
    (nd.Runs (primitives belatedBlocks [[]]) noCert [10, 11, 12, 13] 10 0 fun _ _ => True) ∧
      nd.core.delivered 0 = true ∧
      (nd.core.onPropose (primitives belatedBlocks [[]]) [] [0] [9]).exit =
        some (.throw .notHigherThanVheight) ∧
      nd.core.storage 2 = none ∧
      ((nd.core.onPropose (primitives belatedBlocks [[]]) [] [0] [9]).core.storage 2).isSome = true ∧
      (nd.core.onPropose (primitives belatedBlocks [[]]) [] [0] [9]).core.tails ≠ nd.core.tails := by
  obtain ⟨nd, hreach, hseen⟩ := Transition.runBy_map_reaches belated_run
  simp only [proposesBelated, Prod.mk.injEq] at hseen
  obtain ⟨hd, _, hexit, ⟨htails, hnone⟩, htails', hsome⟩ := hseen
  refine ⟨nd, hreach, hd, hexit, by simpa using hnone, hsome, ?_⟩
  rw [htails, htails']
  decide

end Concrete
end LibHotStuff
