import LibHotStuff.Proofs.CommitQueue
import LibHotStuff.Proofs.ReplicaRuns

namespace LibHotStuff

open Chain

variable {H Sig : Type} [DecidableEq H] {P : Primitives H Sig}

namespace Core

variable {c c' : Core H Sig} {nblk : H}

/-- Nothing is kept for a block that has been decided. -/
def Released (c : Core H Sig) : Prop :=
  ∀ h, c.decided h = true → c.futures h = none ∧ c.sc.shards h = none

/-- Each block that `update` is about to commit has a future, or no shards. -/
def emptiesQueue (c : Core H Sig) (nblk : H) : Bool :=
  (c.commitQueue nblk).all fun b => (c.futures b).isSome || (c.sc.shards b).isNone

/-- A slice is not taken in for a decided block. -/
def takesUndecided (P : Primitives H Sig) (c : Core H Sig) (s : Slice H) : Bool :=
  !s.validate P.sha256Hex || !c.decided s.mBlkHash

/-- The own slice of a proposal, if `on_propose` comes so far, is not for a decided block. -/
def proposesUndecided (P : Primitives H Sig) (c : Core H Sig) (cmds : List UInt256) (bnew : H) :
    Bool :=
  !(c.rse.encode P.leopard (encodeInput cmds)).toOption.any (fun x => decide (x.1 = 0)) ||
    decide (c.height bnew ≤ c.vheight) ||
    !c.decided bnew && decide (bnew ∉ c.commitQueue bnew)

/-- A call leaves nothing for a decided block. -/
def releases (P : Primitives H Sig) (c : Core H Sig) : Call H Sig → Bool
  | .onReceiveSlice s => c.takesUndecided P s
  | .onReceiveProposal prop => c.takesUndecided P prop.slice &&
      (c.onReceiveSlice P prop.slice).core.emptiesQueue prop.blk
  | .onPropose cmds parents extra =>
    let bnew := P.hashBlock (c.proposedData P cmds parents extra)
    let c := c.beforeOwnUpdate P cmds parents extra
    c.emptiesQueue bnew && c.proposesUndecided P cmds bnew
  | _ => true

omit [DecidableEq H] in
theorem Released.of_eq (h : c.Released) (hdec : ∀ h, c'.decided h = c.decided h)
    (hfut : c'.futures = c.futures) (hsc : c'.sc = c.sc) : c'.Released := by
  intro x hx
  rw [hdec] at hx
  rw [hfut, hsc]
  exact h x hx

/-- A slice for an undecided block. -/
theorem Released.slice (h : c.Released) {s : Slice H}
    (hund : s.validate P.sha256Hex = true → c.decided s.mBlkHash = false) :
    (c.onReceiveSlice P s).core.Released := by
  obtain heq | heq | ⟨hvalid, rc, sc, hok, heq⟩ := onReceiveSlice_eq (P := P) c s
  · rw [heq]
    exact h
  · rw [heq]
    exact h
  · rw [heq]
    intro x hx
    have hne : x ≠ s.mBlkHash := by
      rintro rfl
      have hdec : c.decided s.mBlkHash = true := hx
      rw [hund hvalid] at hdec
      cases hdec
    obtain ⟨hfut, hsh⟩ := h x hx
    exact ⟨hfut, (ShardsContainer.insertShard_other hok hne).trans hsh⟩

/-- `update` leaves nothing for the blocks that it commits. -/
theorem Released.update (h : c.Released) (hc : c.WellFormed P) (hd : c.delivered nblk = true)
    (hempty : c.emptiesQueue nblk = true) (hcalm : (c.update P nblk).Calm) :
    (c.update P nblk).core.Released ∧ (∀ x, (c.update P nblk).core.decided x = true →
      c.decided x = true ∨ x ∈ c.commitQueue nblk) := by
  obtain ⟨c', outs, hprep, hcases⟩ := update_steps hc hd
  have hsc : c'.sc = c.sc := by rw [hprep.rest]
  have hrel : c'.Released := by
    intro x hx
    rw [hprep.decided] at hx
    obtain ⟨hfut, hsh⟩ := h x hx
    refine ⟨?_, by rw [hsc, hsh]⟩
    obtain heq | ⟨_, _, _, _, heq⟩ := hprep.futures
    · rw [heq, hfut]
    · obtain hsame | hund := hprep.decodes
      · rw [hsame, hfut]
      · have hne : x ≠ P.justify (P.justify nblk) := by
          rintro rfl
          rw [hund] at hx
          cases hx
        rw [heq, Function.update_of_ne hne, hfut]
  obtain ⟨_, heq⟩ | ⟨_, _, heq⟩ | ⟨b, e, _, _, _, heq⟩ | ⟨b, r, done, hto, hcases⟩ := hcases
  · rw [heq]
    exact ⟨hrel, fun x hx => Or.inl (by rwa [← hprep.decided])⟩
  · rw [heq]
    exact ⟨hrel, fun x hx => Or.inl (by rwa [← hprep.decided])⟩
  · rw [heq]
    exact ⟨hrel, fun x hx => Or.inl (by rwa [← hprep.decided])⟩
  have hc' := hprep.wellFormed hc
  have hqueue : (path P.parent (c'.height b - c'.height c'.bExec) b).reverse =
      (c.commitQueue nblk).reverse := by
    rw [← hto.commitQueue_eq hc', commitQueue_congr hprep.storage (by rw [hprep.rest])]
  obtain ⟨hexit, heq⟩ | ⟨f, hexit, heq⟩ := hcases
  swap
  · -- a future that fails with anything but an exception
    exfalso
    obtain ⟨x, hx⟩ := hto.committed.exit f hexit
    obtain ⟨e, rfl⟩ := hcalm f (by rw [heq])
    exact hc'.futuresReturn x e hx
  have hdone := hto.committed.returned hexit
  have hdecoded := hto.committed.decoded hexit (hto.queue_nodup hc')
  rw [heq]
  constructor
  · intro x hx
    change r.core.futures x = none ∧ r.core.sc.shards x = none
    have kept (hx : c'.futures x = none ∧ c'.sc.shards x = none) :
        r.core.futures x = none ∧ r.core.sc.shards x = none := by
      constructor
      · obtain heq | ⟨_, hn⟩ := hto.committed.futures x
        · rw [heq, hx.1]
        · exact hn
      · obtain heq | ⟨_, hn⟩ := hto.committed.shards x
        · rw [heq, hx.2]
        · exact hn
    obtain hx | ⟨hx, _⟩ := (hto.committed.decided x).mp hx
    · exact kept (hrel x hx)
    · cases hfut : c'.futures x with
      | some v =>
        rw [hdone] at hx
        cases v with
        | ok cmds =>
          rw [← hdone] at hx
          exact hto.committed.released x hx cmds hfut
        | error f => exact absurd hfut (hdecoded x hx f)
      | none =>
        refine kept ⟨hfut, ?_⟩
        rw [hdone, hqueue] at hx
        have hmem := List.all_eq_true.mp hempty x (List.mem_reverse.mp hx)
        have hfut₀ : c.futures x = none := by
          obtain heq | ⟨_, _, _, _, heq⟩ := hprep.futures
          · rw [← heq, hfut]
          · rw [heq] at hfut
            by_cases hxb : x = P.justify (P.justify nblk)
            · rw [hxb, Function.update_self] at hfut
              cases hfut
            · rwa [Function.update_of_ne hxb] at hfut
        rw [hfut₀] at hmem
        rw [hsc]
        simpa using hmem
  · intro x hx
    change r.core.decided x = true at hx
    obtain hx | ⟨hx, _⟩ := (hto.committed.decided x).mp hx
    · exact Or.inl (by rwa [← hprep.decided])
    · rw [hdone, hqueue] at hx
      exact Or.inr (List.mem_reverse.mp hx)

theorem update_same (hc : c.WellFormed P) (hd : c.delivered nblk = true) :
    c.SameDag (c.update P nblk).core ∧ (c.update P nblk).core.vheight = c.vheight ∧
      (c.update P nblk).core.rse = c.rse := by
  obtain ⟨c', outs, hprep, hcases⟩ := update_steps hc hd
  have hprepared : c.SameDag c' ∧ c'.vheight = c.vheight ∧ c'.rse = c.rse :=
    ⟨hprep.sameDag, by rw [hprep.rest], by rw [hprep.rest]⟩
  have hcommitted {b : H} {r : Res H Sig} {done : List H} (hto : c'.CommitsTo P nblk b r done) :
      c.SameDag r.core ∧ r.core.vheight = c.vheight ∧ r.core.rse = c.rse :=
    ⟨hprep.sameDag.trans hto.committed.sameDag, hto.committed.same.vheight.trans hprepared.2.1,
      hto.committed.same.rse.trans hprepared.2.2⟩
  obtain ⟨_, heq⟩ | ⟨_, _, heq⟩ | ⟨_, _, _, _, _, heq⟩ |
    ⟨b, r, done, hto, ⟨_, heq⟩ | ⟨_, _, heq⟩⟩ := hcases
  · rw [heq]
    exact hprepared
  · rw [heq]
    exact hprepared
  · rw [heq]
    exact hprepared
  · rw [heq]
    obtain ⟨hsame, hrest⟩ := hcommitted hto
    exact ⟨hsame.trans (.of_storage rfl rfl), hrest⟩
  · have hsame := hcommitted hto
    rw [heq]
    exact hsame

/-- What `on_receive_proposal` does before it votes, once the slice has been taken in. -/
def beforeVote (P : Primitives H Sig) (c : Core H Sig) (prop : Proposal H) : Res H Sig :=
  if prop.proposer = c.id then .ok c
  else if c.delivered prop.blk then c.update P prop.blk
  else .fail c (.throw .blockNotDelivered)

/-- `on_receive_proposal` leaves nothing for a decided block if `update` does not. -/
theorem Released.handled (h : c.Released) {prop : Proposal H}
    (hund : prop.slice.validate P.sha256Hex = true → c.decided prop.slice.mBlkHash = false)
    (hbefore : ∀ c₀, c.onReceiveSlice P prop.slice = .ok c₀ → c₀.Released →
      (c₀.beforeVote P prop).Calm → (c₀.beforeVote P prop).core.Released)
    (hcalm : (c.onReceiveProposal P prop).Calm) : (c.onReceiveProposal P prop).core.Released := by
  have hslice := h.slice hund
  have ok {c₀ : Core H Sig} (heq : c.onReceiveSlice P prop.slice = .ok c₀) :
      (c.onReceiveProposal P prop).core.Released := by
    rw [heq] at hslice
    obtain hres | hres := onReceiveProposal_eq heq
    · rw [hres]
      exact h
    rw [hres] at hcalm ⊢
    change ((c₀.beforeVote P prop).bind fun c => c.castVote P prop).Calm at hcalm
    change ((c₀.beforeVote P prop).bind fun c => c.castVote P prop).core.Released
    cases hexit : (c₀.beforeVote P prop).exit with
    | none =>
      rw [Res.bind_none hexit]
      obtain ⟨v, hv⟩ := castVote_core (P := P) (c₀.beforeVote P prop).core prop
      rw [hv]
      exact (hbefore c₀ heq hslice (.of_none hexit)).of_eq (fun _ => rfl) rfl rfl
    | some f =>
      rw [Res.bind_some hexit] at hcalm ⊢
      exact hbefore c₀ heq hslice hcalm
  obtain heq | heq | ⟨_, _, _, _, heq⟩ := onReceiveSlice_eq (P := P) c prop.slice
  · exact ok heq
  · obtain hres | hres := onReceiveProposal_fault heq
    · rw [hres]
      exact h
    · rw [hres]
      exact h
  · exact ok heq

/-- The proposal of another replica. -/
theorem Released.received (h : c.Released) (hc : c.WellFormed P) {prop : Proposal H}
    (hid : prop.proposer ≠ c.id) (hd : c.delivered prop.blk = true)
    (hcond : c.releases P (.onReceiveProposal prop) = true)
    (hcalm : (c.onReceiveProposal P prop).Calm) : (c.onReceiveProposal P prop).core.Released := by
  simp only [releases, takesUndecided, Bool.and_eq_true, Bool.or_eq_true, Bool.not_eq_true'] at hcond
  obtain ⟨hund, hempty⟩ := hcond
  refine h.handled (fun hv => hund.resolve_left fun hn => by simp [hv] at hn) ?_ hcalm
  intro c₀ heq hrel hcalm'
  rw [heq] at hempty
  obtain ⟨sc, rfl⟩ := onReceiveSlice_ok heq
  have hd₀ : ({ c with sc := sc } : Core H Sig).delivered prop.blk = true := hd
  have hid₀ : prop.proposer ≠ ({ c with sc := sc } : Core H Sig).id := hid
  unfold beforeVote at hcalm' ⊢
  rw [if_neg hid₀, if_pos hd₀] at hcalm' ⊢
  exact (hrel.update (hc.with_shards sc) hd₀ hempty hcalm').1

/-- The end of `on_propose`. -/
theorem Released.sent (h : c.Released) {cmds : List UInt256} {bnew : H}
    (hund : (∃ shards, c.rse.encode P.leopard (encodeInput cmds) = .ok (0, shards)) →
      c.vheight < c.height bnew → c.decided bnew = false)
    (hcalm : (c.sendProposal P cmds bnew).Calm) : (c.sendProposal P cmds bnew).core.Released := by
  obtain ⟨f, _, heq⟩ | ⟨props, prop, hgt, _, hprop, ⟨shards, _, henc, _, _, _, hslice⟩, _, heq⟩ :=
    sendProposal_cases (P := P) c cmds bnew
  · rw [heq]
    exact h
  have hundecided : c.decided prop.slice.mBlkHash = false := by
    rw [hslice]
    exact hund ⟨shards, henc⟩ hgt
  have own (hcalm : (c.onReceiveProposal P prop).Calm) :
      (c.onReceiveProposal P prop).core.Released := by
    refine h.handled (fun _ => hundecided) ?_ hcalm
    intro c₀ hok hrel _
    obtain ⟨sc, rfl⟩ := onReceiveSlice_ok hok
    unfold beforeVote
    rw [if_pos hprop]
    exact hrel
  rw [heq] at hcalm ⊢
  cases hexit : (c.onReceiveProposal P prop).exit with
  | none =>
    rw [Res.bind_none hexit]
    exact own (.of_none hexit)
  | some f =>
    rw [Res.bind_some hexit] at hcalm ⊢
    exact own hcalm

/-- `on_propose`. -/
theorem Released.proposed (h : c.Released) (hc : c.WellFormed P) {cmds : List UInt256}
    {parents : List H} {extra : Bytes} (hpar : parents.all c.delivered = true)
    (hcond : c.releases P (.onPropose cmds parents extra) = true)
    (hcalm : (c.onPropose P cmds parents extra).Calm) :
    (c.onPropose P cmds parents extra).core.Released := by
  unfold releases beforeOwnUpdate at hcond
  unfold onPropose at hcalm ⊢
  cases hp₀ : parents.head? with
  | none => exact h
  | some p₀ =>
    simp only [hp₀] at hcond hcalm ⊢
    generalize hbnew : P.hashBlock (c.proposedData P cmds parents extra) = bnew at *
    obtain ⟨hnot, _⟩ | ⟨c₁, hok, hgrow, hd⟩ := storeProposed_delivers hc hp₀ hbnew rfl
    · rw [hpar] at hnot
      cases hnot
    rw [hok, Res.ok] at hcond
    rw [hok, Res.bind_none rfl] at hcalm ⊢
    simp only [Res.ok, List.nil_append] at hcalm ⊢
    simp only [Bool.and_eq_true] at hcond
    obtain ⟨hempty, hund⟩ := hcond
    have hrel : c₁.Released := h.of_eq hgrow.quiet.decided hgrow.quiet.futures hgrow.quiet.sc
    cases hexit : (c₁.update P bnew).exit with
    | some f =>
      rw [Res.bind_some hexit] at hcalm ⊢
      exact (hrel.update hgrow.wellFormed hd hempty hcalm).1
    | none =>
      rw [Res.bind_none hexit] at hcalm ⊢
      obtain ⟨hrel', hdec⟩ := hrel.update hgrow.wellFormed hd hempty (.of_none hexit)
      refine hrel'.sent ?_ hcalm
      rintro ⟨shards, henc⟩ hgt
      obtain ⟨hsame, hvheight, hrse⟩ := update_same hgrow.wellFormed hd
      rw [hrse] at henc
      rw [hvheight, hsame.height] at hgt
      simp only [proposesUndecided, henc, Except.toOption, Option.any_some, decide_true, Bool.not_true,
        Bool.false_or, Bool.or_eq_true, decide_eq_true_eq, Bool.and_eq_true, Bool.not_eq_true'] at hund
      obtain hle | ⟨hnot, hout⟩ := hund
      · omega
      · cases hdec' : ((c₁.update P bnew).core.decided bnew) with
        | false => rfl
        | true =>
          obtain hold | hin := hdec bnew hdec'
          · rw [hnot] at hold
            cases hold
          · exact absurd hin hout

/-- Each call that meets its condition leaves nothing for a decided block. -/
theorem Released.call (h : c.Released) (hc : c.WellFormed P) {i : Call H Sig}
    (hasks : Replica.Asks P c i) (hcond : c.releases P i = true) (hcalm : (c.call P i).Calm) :
    (c.call P i).core.Released := by
  cases i with
  | addBlk data =>
    have hquiet := (addBlk_grows hc data).1.quiet
    exact h.of_eq hquiet.decided hquiet.futures hquiet.sc
  | onDeliverBlk blk =>
    have hquiet := (deliver_grows hc hasks).1.quiet
    exact h.of_eq hquiet.decided hquiet.futures hquiet.sc
  | onReceiveProposal prop => exact h.received hc hasks.1 hasks.2.2 hcond hcalm
  | onReceiveVote vote =>
    obtain ⟨hrest, hdec⟩ := onReceiveVote_rest hc vote
    have hfut : (c.onReceiveVote vote).core.futures = c.futures := by rw [hrest]
    have hsc : (c.onReceiveVote vote).core.sc = c.sc := by rw [hrest]
    exact h.of_eq hdec hfut hsc
  | onReceiveSlice s =>
    apply h.slice
    intro hvalid
    simpa [releases, takesUndecided, hvalid] using hcond
  | onPropose cmds parents extra => exact h.proposed hc hasks hcond hcalm
  | setVoteDisabled f => exact hasks.elim

end Core

namespace Replica

/-- The call that the event makes leaves nothing for a decided block. -/
def releases (P : Primitives H Sig) (nd : Replica H Sig) (e : Event H Sig) : Bool :=
  e.call?.all fun i => !e.heeded P || nd.core.releases P i

/-- Bookkeeping is released: in every run of a replica in which no valid slice is taken in for a
decided block, and each block that is committed has a future or no shards, nothing is kept for a
decided block in `sc` and in `futures`. -/
theorem released_on_commit {nd : Replica H Sig} {dummy : QuorumCert H Sig} {replicas : List NetAddr}
    {listenAddr : NetAddr} {id : ReplicaID}
    (h : nd.Runs P dummy replicas listenAddr id fun nd e => nd.releases P e = true)
    (hrun : nd.halted = false) (blk : H) (hdec : nd.core.decided blk = true) :
    nd.core.futures blk = none ∧ nd.core.sc.shards blk = none := by
  have hinit : ((Core.new P id dummy).start replicas listenAddr).Released := by
    have hstart := Core.start_started P id dummy replicas listenAddr
    intro x _
    rw [hstart.futures, hstart.sc]
    exact ⟨rfl, rfl⟩
  refine h.keeps hinit ?_ hrun blk hdec
  intro nd e i hc hrel hcond hmakes hasks hcalm
  have hcall : nd.core.releases P i = true := by
    obtain ⟨hcall, hheed⟩ | ⟨vote, rfl⟩ := hmakes
    · simpa [releases, hcall, hheed] using hcond
    · rfl
  exact hrel.call hc hasks hcall hcalm

end Replica

namespace Concrete

/-- What happens at replica 0 when it makes the four blocks, with the slices of some replicas. -/
def payerRun (slices : List ReplicaID) : List (Event Nat Signature) :=
  (paidRun slices).filter fun e => e.at_ = 0

/-- What is left at replica 0 for the first block: its flag, its future and its shards. -/
def leftOver (nd : Replica Nat Signature) : Bool × Bool × Bool :=
  (nd.core.decided 1, (nd.core.futures 1).isSome, (nd.core.sc.shards 1).isSome)

set_option maxRecDepth 100000 in
theorem released_run :
    (Transition.runBy (Replica.handle (paid [0, 1, 2]))
      (fun nd e => nd.releases (paid [0, 1, 2]) e = true)
      (Replica.init (paid [0, 1, 2]) noCert [10, 11, 12, 13] 10 0) (payerRun [1, 2])).map
        (fun nd => (nd.halted, nd.core.decided 1)) = some (false, true) := by
  decide +kernel

/-- Block 1 has been committed, and its shards and its future are gone. -/
theorem released_on_commit_paid : ∃ nd : Replica Nat Signature, nd.core.decided 1 = true ∧
    nd.core.futures 1 = none ∧ nd.core.sc.shards 1 = none := by
  obtain ⟨nd, hreach, hseen⟩ := Transition.runBy_map_reaches released_run
  obtain ⟨hrun, hdec⟩ := Prod.mk.inj hseen
  exact ⟨nd, hdec, Replica.released_on_commit hreach hrun 1 hdec⟩

/-- What is left after some events at replica 0. -/
def leftAfter (events : List (Event Nat Signature)) : Option (Bool × Bool × Bool) :=
  (Transition.runBy (Replica.handle (paid [0, 1, 2])) (fun _ _ => True)
    (Replica.init (paid [0, 1, 2]) noCert [10, 11, 12, 13] 10 0) events).map leftOver

/-- The slice of replica 1 for the first block. -/
def firstSlice : List (Event Nat Signature) :=
  (payerRun [1]).filter fun e => match e with
    | .receiveSlice _ _ _ s => decide (s.mBlkHash = 1)
    | _ => false

set_option maxRecDepth 100000 in
/-- Without the slices of the others block 1 is committed without a future, and the own slice stays;
and a slice that comes after the commit makes a new entry. -/
theorem unreleased_runs : leftAfter (payerRun []) = some (true, false, true) ∧
    leftAfter (payerRun [1, 2] ++ firstSlice) = some (true, false, true) := by
  decide +kernel

end Concrete
end LibHotStuff
