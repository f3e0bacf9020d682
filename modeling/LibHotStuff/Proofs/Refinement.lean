import LibHotStuff.Library.Transition
import LibHotStuff.Proofs.Parties

namespace LibHotStuff

open Chain Relation

variable {H Sig : Type}

namespace Output

/-- The calls that the core makes before its last ones. -/
def ofCore : Output H Sig → Bool
  | doVote _ _ => false
  | doBroadcastProposalWithSlice _ => false
  | _ => true

theorem ofCore_of_commit {outs : List (Output H Sig)} (h : outs.all ofCommit = true) :
    outs.all ofCore = true := by
  rw [List.all_eq_true] at h ⊢
  intro o ho
  have := h o ho
  cases o <;> simp_all [ofCommit, ofCore]

end Output

variable [DecidableEq H]

/-- A slice that does not have the hash that its message names is dropped. -/
def Event.heeded (P : Primitives H Sig) : Event H Sig → Bool
  | receiveSlice _ _ hash slice => decide (hash = P.hashSlice slice)
  | _ => true

/-- The rules with what `update` has done before a vote. -/
def Rules.raised (R : Rules H Sig) (P : Primitives H Sig) : Rules H Sig :=
  { R with vote := fun c blk s => R.vote c blk s ∧ c.Raised P blk }

namespace Core

variable {P : Primitives H Sig} {R : Rules H Sig} {c c' : Core H Sig} {outs : List (Output H Sig)}

theorem Steps.stable (h : Steps (Move P R) c outs c') : c.Stable c' := by
  induction h with
  | nil => exact ⟨rfl, rfl, rfl, rfl, fun _ hx => hx⟩
  | cons hm _ ih =>
    have hs := hm.stable
    exact ⟨ih.id.trans hs.id, ih.vheight.trans hs.vheight, ih.config.trans hs.config, ih.rse.trans hs.rse,
      fun x hx => ih.delivered x (hs.delivered x hx)⟩

theorem Move.ofCore (h : Move P R c outs c') : outs.all Output.ofCore = true := by
  cases h with
  | pre h =>
    cases h with
    | shards _ => rfl
    | slice _ _ => rfl
    | prepare _ hp => rcases hp.outs_eq with ho | ho <;> rw [ho] <;> rfl
    | propose _ _ _ _ => rfl
  | commit hto _ _ => exact Output.ofCore_of_commit hto.committed.outs

/-- What is asked of a call under the rules. -/
def Follows (P : Primitives H Sig) (R : Rules H Sig) (c : Core H Sig) : Call H Sig → Prop
  | .onReceiveProposal prop =>
    (prop.sHash = P.hashSlice prop.slice → R.slice prop.slice) ∧
    (∀ u outs, (c.onReceiveSlice P prop.slice).core.Prepared P prop.blk u outs →
      R.commit u prop.blk) ∧
    (((c.onReceiveSlice P prop.slice).core.update P prop.blk).core.Raised P prop.blk →
      R.vote ((c.onReceiveSlice P prop.slice).core.update P prop.blk).core prop.blk prop.slice)
  | .onReceiveSlice s => R.slice s
  | .onPropose cmds parents extra =>
    ∀ bnew, P.hashBlock (c.proposedData P cmds parents extra) = bnew →
      R.propose c bnew ∧
      (∀ i s, (c.beforeOwnVote P cmds parents extra).OwnSlice P cmds bnew i s → R.slice s) ∧
      (∀ u outs, (c.beforeOwnUpdate P cmds parents extra).Prepared P bnew u outs →
        R.commit u bnew) ∧
      ∀ sc s, (c.beforeOwnVote P cmds parents extra).OwnSlice P cmds bnew
        (c.beforeOwnVote P cmds parents extra).id s → (c.beforeOwnVote P cmds parents extra).Raised P bnew →
          R.vote { c.beforeOwnVote P cmds parents extra with sc := sc } bnew s
  | _ => True

end Core

namespace Party

variable {P : Primitives H Sig} {D : Deployment} {R : Rules H Sig} {w : Parties H Sig}
  {p p' p'' : Party H Sig} {r : ReplicaID}

/-- What a call leaves of a replica. -/
structure After (p : Party H Sig) (res : Res H Sig) (p' : Party H Sig) : Prop where
  core : p'.core = res.core
  outs : p'.outs = p.outs ++ res.outs
  ofCore : res.outs.all Output.ofCore = true
  le : p.Le p'
  votes : ∀ last v, Task.doVote last v ∈ res.tasks → v.voter = p.core.id ∧ p'.Voted v.blkHash
  stuck : p'.stuck = true → p.stuck = true ∨ ∃ f, res.exit = some f ∧ ∀ e, f ≠ .throw e
  breached : p.breached = true ∨ res.exit = some (.throw .safetyBreached) → p'.breached = true

/-- Replica `r` gets from one state to another by acts of its own. -/
def Acts (P : Primitives H Sig) (D : Deployment) (R : Rules H Sig) (w : Parties H Sig)
    (r : ReplicaID) (p' : Party H Sig) : Prop :=
  ReflTransGen (Parties.Step P D R) w (Function.update w r p')

theorem Acts.refl (w : Parties H Sig) (r : ReplicaID) : Acts P D R w r (w r) := by
  rw [Acts, Function.update_eq_self]

theorem Acts.single (hr : D.Correct r) (hs : (w r).stuck = false) (h : (w r).Act P D R w p') :
    Acts P D R w r p' :=
  ReflTransGen.single (Parties.Step.act hr hs h)

theorem Acts.tail (hr : D.Correct r) (h : Acts P D R w r p') (hs : p'.stuck = false)
    (hact : p'.Act P D R (Function.update w r p') p'') : Acts P D R w r p'' := by
  have hstep : Parties.Step P D R (Function.update w r p')
      (Function.update (Function.update w r p') r p'') := by
    refine .act hr ?_ ?_
    · rw [Function.update_self]
      exact hs
    · rw [Function.update_self]
      exact hact
  rw [Function.update_idem] at hstep
  exact ReflTransGen.tail h hstep

theorem Acts.moves (hr : D.Correct r) (hs : (w r).stuck = false) {c c' : Core H Sig}
    {outs : List (Output H Sig)} (h : Core.Steps (Core.Move P R) c outs c')
    {log : List (Output H Sig)} (h₀ : Acts P D R w r { w r with core := c, outs := log }) :
    outs.all Output.ofCore = true ∧ 
      Acts P D R w r { w r with core := c', outs := log ++ outs } := by
  induction h generalizing log with
  | nil => exact ⟨rfl, by rwa [List.append_nil]⟩
  | cons hm _ ih =>
    obtain ⟨hall, hacts⟩ := ih (h₀.tail hr hs (.move hm))
    refine ⟨by rw [List.all_append, hm.ofCore, hall]; rfl, ?_⟩
    rwa [← List.append_assoc]

omit [DecidableEq H] in
theorem Le.of_stable {c : Core H Sig} (h : p.core.Stable c) (outs : List (Output H Sig)) :
    p.Le { p with core := c, outs := p.outs ++ outs } :=
  ⟨h.id, h.config, h.rse, h.delivered, List.suffix_rfl, List.prefix_append _ _⟩

/-- A call for a proposal is a sequence of acts. -/
theorem Acts.ends (hr : D.Correct r) (hs : (w r).stuck = false) (hv : (w r).Valid P D r)
    {own : Option H} {res : Res H Sig} (he : (w r).core.Ends P R own res) :
    ∃ p', Acts P D R w r p' ∧ (w r).After res p' := by
  cases he with
  | @fault c' outs f hsteps hf =>
    obtain ⟨hout, hacts⟩ := Acts.moves hr hs hsteps (.refl w r)
    have hbr : ¬ some f = some (.throw .safetyBreached) := fun h => hf (Option.some.inj h)
    exact ⟨_, hacts, rfl, rfl, hout, .of_stable hsteps.stable outs, by simp, Or.inl,
      fun hb => hb.resolve_right hbr⟩
  | @breach c' outs nblk b e hsteps hdec hup hne =>
    obtain ⟨hout, hacts⟩ := Acts.moves hr hs hsteps.move (.refl w r)
    have hle := Le.of_stable hsteps.move.stable outs
    exact ⟨_, hacts.tail hr hs (.breach hdec hup hne), rfl, rfl, hout,
      hle.trans ⟨rfl, rfl, rfl, fun _ hx => hx, List.suffix_rfl, List.prefix_rfl⟩, by simp,
      Or.inl, fun _ => rfl⟩
  | @commit c' outs nblk b r' done f hsteps hto hrule hexit =>
    obtain ⟨hout, hacts⟩ := Acts.moves hr hs hsteps.move (.refl w r)
    have hthrow := hto.exit_ne_throw (hsteps.move.wellFormed hv.wellFormed) hexit
    have hbr : ¬ some f = some (.throw .safetyBreached) := fun h => hthrow _ (Option.some.inj h)
    have hle := (Le.of_stable hsteps.move.stable outs).trans
      (Le.of_stable hto.committed.stable r'.outs)
    refine ⟨_, hacts.tail hr hs (.cut hto hrule hexit), rfl, List.append_assoc _ _ _, ?_,
      ⟨hle.id, hle.config, hle.rse, hle.delivered, hle.votes, hle.outs⟩, by simp,
      fun _ => Or.inr ⟨f, rfl, hthrow⟩, fun hb => hb.resolve_right hbr⟩
    rw [List.all_append, hout, Output.ofCore_of_commit hto.committed.outs]
    rfl
  | @vote u outs extra prop hsteps hmem hrule hafter =>
    obtain ⟨hout, hacts⟩ := Acts.moves hr hs hsteps (.refl w r)
    have hle := Le.of_stable hsteps.stable outs
    have hextra : ∀ last v, Task.doVote last v ∉ extra := by
      rcases hafter with ⟨_, rfl⟩ | ⟨_, _, _, _, props, rfl, _⟩ <;> simp
    have hfinish : ∀ last v, Task.doVote last v ∉ u.finishTasks prop := by
      intro last v hmem
      unfold Core.finishTasks at hmem
      split at hmem
      · simp at hmem
      · obtain ⟨_, _, h⟩ := List.mem_map.mp hmem
        cases h
    obtain ⟨o, hiff, hcast⟩ := Core.castVote_eq (hsteps.wellFormed hv.wellFormed) prop
    rw [hcast]
    cases o with
    | false =>
      refine ⟨_, hacts, rfl, rfl, hout, hle, fun last v hv => ?_, Or.inl, fun hb => ?_⟩
      · simp [hextra, hfinish] at hv
      · exact hb.resolve_right (by simp)
    | true =>
      refine ⟨_, hacts.tail hr hs (.vote (hiff.mp rfl) hrule (List.mem_append_right _ hmem)), rfl,
        rfl, hout, hle.trans ⟨rfl, rfl, rfl, fun _ hx => hx, List.suffix_cons _ _, List.prefix_rfl⟩,
        fun last v hv => ?_, Or.inl, fun hb => hb.resolve_right (by simp)⟩
      have hvote : v = u.voteFor P prop.blk := by
        by_cases hdis : u.voteDisabled = true
        · simp [hextra, hfinish, hdis] at hv
        · simp [hextra, hfinish, hdis] at hv
          exact hv.2
      rw [hvote]
      exact ⟨hle.id, _, List.mem_cons_self⟩

/-- What a call leaves when a slice is all that it takes in. -/
theorem Acts.slice (hr : D.Correct r) (hs : (w r).stuck = false) (hv : (w r).Valid P D r)
    {s : Slice H} (hrule : R.slice s) :
    ∃ p', Acts P D R w r p' ∧ (w r).After ((w r).core.onReceiveSlice P s) p' := by
  have same (hcore : Res H Sig) (hout : hcore.core = (w r).core ∧ hcore.outs = [] ∧ hcore.tasks = [] ∧
      ∀ e, hcore.exit ≠ some (.throw e)) : (w r).After hcore (w r) :=
    ⟨hout.1.symm, by rw [hout.2.1, List.append_nil], by rw [hout.2.1]; rfl, .refl _,
      by rw [hout.2.2.1]; simp, Or.inl, fun hb => hb.resolve_right (hout.2.2.2 _)⟩
  rcases Core.onReceiveSlice_eq (P := P) (w r).core s with h | h | ⟨hok, rc, sc, hins, h⟩
  · rw [h]
    exact ⟨_, .refl w r, same _ ⟨rfl, rfl, rfl, by simp [Res.ok]⟩⟩
  · rw [h]
    exact ⟨_, .refl w r, same _ ⟨rfl, rfl, rfl, by simp [Res.fail]⟩⟩
  · rw [h]
    have hact : (w r).Act P D R w { w r with
        core := { (w r).core with sc := sc }, outs := (w r).outs ++ [] } :=
      .move (.pre (.shards ⟨hrule, hok, rc, hins⟩))
    exact ⟨_, .single hr hs hact, rfl, rfl, rfl, hact.le hv.wellFormed, by simp [Res.ok], Or.inl,
      fun hb => hb.resolve_right (by simp [Res.ok])⟩

/-- A vote is counted, and may make a certificate. -/
theorem Acts.counted (hr : D.Correct r) (hs : (w r).stuck = false) (hv : (w r).Valid P D r)
    {v : Vote H Sig} (hlt : v.voter < D.n) (hvoted : D.Correct v.voter → (w v.voter).Voted v.blkHash) :
    ∃ p', Acts P D R w r p' ∧ (w r).After ((w r).core.onReceiveVote v) p' := by
  have same (res : Res H Sig) (hcore : res.core = (w r).core) (hout : res.outs = [])
      (htask : res.tasks = []) (hexit : res.exit ≠ some (.throw .safetyBreached)) :
      (w r).After res (w r) :=
    ⟨hcore.symm, by rw [hout, List.append_nil], by rw [hout]; rfl, .refl _,
      by rw [htask]; simp, Or.inl, fun hb => hb.resolve_right hexit⟩
  rcases Core.onReceiveVote_cases hv.wellFormed v with h | h | ⟨c', hk, hres⟩
  · rw [h]
    exact ⟨_, .refl w r, same _ rfl rfl rfl (by simp [Res.fail])⟩
  · rw [h]
    exact ⟨_, .refl w r, same _ rfl rfl rfl (by simp [Res.ok])⟩
  have hact : (w r).Act P D R w { w r with core := c' } := .count hlt hvoted hk
  have hacts := Acts.single hr hs hact
  have hle := hact.le hv.wellFormed
  have counted (res : Res H Sig) (hcore : res.core = c') (hout : res.outs = [])
      (htask : ∀ last v, Task.doVote last v ∉ res.tasks)
      (hexit : res.exit ≠ some (.throw .safetyBreached)) :
      (w r).After res { w r with core := c' } :=
    ⟨hcore.symm, by rw [hout, List.append_nil], by rw [hout]; rfl, hle,
      fun last v hmem => absurd hmem (htask last v), Or.inl, fun hb => hb.resolve_right hexit⟩
  rcases hres with h | h | ⟨hmaj, hqc, outs, h, ⟨rfl, rfl⟩ | ⟨rfl, hlt', hfst, hobj⟩⟩
  · rw [h]
    exact ⟨_, hacts, counted _ rfl rfl (by simp [Res.fail]) (by simp [Res.fail])⟩
  · rw [h]
    exact ⟨_, hacts, counted _ rfl rfl (by simp [Res.ok]) (by simp [Res.ok])⟩
  · rw [h]
    have hhqc : c'.hqc = (w r).core.hqc := by
      have hq := congrArg Core.hqc hk.rest
      exact hq
    exact ⟨_, hacts, counted _ (by rw [← hhqc]) rfl (by simp) (by simp)⟩
  · rw [h]
    have hdel : c'.delivered v.blkHash = true := by rw [hk.sameDag.delivered, hk.delivered]
    have hconfig := congrArg Core.config hk.rest
    have hhqc := congrArg Core.hqc hk.rest
    have hraise : Act P D R (Function.update w r { w r with core := c' }) { w r with core := c' }
        { w r with
          core := { c' with hqc := (v.blkHash, hqc.2) }, outs := (w r).outs ++ [.onHqcUpdate] } := by
      refine .raise hdel ?_ ?_ hobj
      · change (c'.voters v.blkHash).length = c'.config.nmajority
        rw [hmaj]
        exact congrArg ReplicaConfig.nmajority hconfig.symm
      · change c'.height c'.hqc.1 < c'.height v.blkHash
        have h₁ : c'.hqc = (w r).core.hqc := hhqc
        rw [h₁, hk.sameDag.height, hk.sameDag.height]
        exact hlt'
    refine ⟨_, hacts.tail hr hs hraise, ?_, rfl, rfl,
      hle.trans ⟨rfl, rfl, rfl, fun _ hx => hx, List.suffix_rfl, List.prefix_append _ _⟩, by simp,
      Or.inl, fun hb => hb.resolve_right (by simp)⟩
    rw [← hfst]

theorem Acts.quiet (hr : D.Correct r) (hs : (w r).stuck = false) {res : Res H Sig}
    (hout : res.outs = []) (htask : res.tasks = [])
    (hexit : res.exit ≠ some (.throw .safetyBreached)) (hv : (w r).Valid P D r)
    (hact : (w r).Act P D R w { w r with core := res.core }) :
    ∃ p', Acts P D R w r p' ∧ (w r).After res p' :=
  ⟨_, .single hr hs hact, rfl, by rw [hout, List.append_nil], by rw [hout]; rfl,
    hact.le hv.wellFormed, by rw [htask]; simp, Or.inl, fun hb => hb.resolve_right hexit⟩

/-- What the network lets a call of replica `r` rely on. -/
def Guard (P : Primitives H Sig) (D : Deployment) (w : Parties H Sig) (r : ReplicaID) :
    Call H Sig → Prop
  | .addBlk data => w.Sent P D data ∧ w.Unforged P D data.qc
  | .onDeliverBlk blk => Replica.deliverable P (w r).core blk = true
  | .onReceiveProposal prop => prop.proposer ≠ r
  | .onReceiveVote v => v.voter < D.n ∧ (D.Correct v.voter → (w v.voter).Voted v.blkHash)
  | .onReceiveSlice _ => True
  | .onPropose _ parents _ => parents.all (w r).core.delivered = true
  | .setVoteDisabled _ => False

/-- A call is a sequence of acts. -/
theorem Acts.call (hr : D.Correct r) (hs : (w r).stuck = false) (hv : (w r).Valid P D r)
    {i : Call H Sig} (hg : Guard P D w r i) (hf : (w r).core.Follows P R i) :
    ∃ p', Acts P D R w r p' ∧ (w r).After ((w r).core.call P i) p' := by
  have hc := hv.wellFormed
  cases i with
  | addBlk data =>
    exact Acts.quiet hr hs rfl rfl (by simp [Core.call, Res.ok]) hv (.store hg.1 hg.2)
  | onDeliverBlk blk =>
    obtain ⟨_, hout, htask, hexit⟩ := Core.deliver_grows hc hg
    exact Acts.quiet hr hs hout htask (hexit _) hv (.deliver hg)
  | onReceiveProposal prop =>
    have hid : prop.proposer ≠ (w r).core.id := by rw [hv.id]; exact hg
    obtain ⟨hslice, hcommit, hvote⟩ := hf
    by_cases hhash : prop.sHash = P.hashSlice prop.slice
    · exact Acts.ends hr hs hv (Core.onReceiveProposal_ends hc hid (hslice hhash) hcommit hvote)
    · have hfail : (w r).core.onReceiveProposal P prop = .fail (w r).core .assertion := by
        rw [Core.onReceiveProposal, if_neg fun hok => hhash hok.1]
      rw [Core.call, hfail]
      exact Acts.ends hr hs hv (.fault (.nil _) (by simp) : Core.Ends P R _ none _)
  | onReceiveVote v => exact Acts.counted hr hs hv hg.1 hg.2
  | onReceiveSlice s => exact Acts.slice hr hs hv hf
  | onPropose cmds parents extra =>
    obtain ⟨hprop, hslice, hcommit, hvote⟩ := hf _ rfl
    rcases Core.onPropose_ends hc cmds parents extra rfl (fun _ => hprop) hslice hcommit hvote with
      ⟨hpar, _⟩ | he
    · have hall : parents.all (w r).core.delivered = true := hg
      rw [hall] at hpar
      cases hpar
    · exact Acts.ends hr hs hv he
  | setVoteDisabled f => exact hg.elim

end Party

/-- A replica and what is kept of it. -/
structure Replica.Sim (nd : Replica H Sig) (p : Party H Sig) : Prop where
  core : p.core = nd.core
  outs : p.outs = nd.log.filter Output.ofCore
  votes : ∀ last v, Output.doVote last v ∈ nd.log ∨ Task.doVote last v ∈ nd.tasks →
    v.voter = p.core.id ∧ p.Voted v.blkHash
  stuck : p.stuck = true → nd.halted = true
  breached : .safetyBreached ∈ nd.thrown → p.breached = true

namespace Replica

variable {nd nd' : Replica H Sig} {p p' : Party H Sig}

omit [DecidableEq H] in
theorem idle_iff : nd.idle = true ↔ nd.halted = false ∧ nd.tasks = [] := by
  simp [idle]

/-- The handler that runs hands a vote to its own replica, or makes no call of the core. -/
theorem runTask_self {ord : List H} (h : nd.runTask ord true = some nd') :
    nd.runTask ord false = some nd' ∨ ∃ last vote rest, nd.tasks = .doVote last vote :: rest ∧
      nd' = ({ nd with log := nd.log ++ [.doVote last vote] } : Replica H Sig).absorb ord rest
        (nd.core.onReceiveVote vote) := by
  unfold runTask at h ⊢
  split at h
  · cases h
  · exact Or.inl h
  · exact Or.inl h
  · exact Or.inl h
  · rename_i last vote rest htasks
    exact Or.inr ⟨last, vote, rest, htasks, (Option.some.inj h).symm⟩
  · exact Or.inl h
  · exact Or.inl h

theorem Sim.absorb (h : nd.Sim p) {res : Res H Sig} (ha : p.After res p')
    {rest : List (Task H Sig)} (hrest : rest ⊆ nd.tasks) (ord : List H) :
    (nd.absorb ord rest res).Sim p' := by
  have hlog : (nd.absorb ord rest res).log = nd.log ++ res.outs := by
    unfold Replica.absorb
    dsimp only
    split <;> rfl
  have hcore : (nd.absorb ord rest res).core = res.core := by
    unfold Replica.absorb
    dsimp only
    split <;> rfl
  have htasks : (nd.absorb ord rest res).tasks ⊆ res.tasks ++ rest := by
    unfold Replica.absorb
    dsimp only
    split
    · exact List.Subset.refl _
    · exact List.nil_subset _
    · exact List.nil_subset _
  refine ⟨by rw [hcore, ha.core], ?_, fun last v hmem => ?_, fun hst => ?_, fun hbr => ?_⟩
  · rw [hlog, ha.outs, h.outs, List.filter_append, List.filter_eq_self.mpr fun o ho =>
      List.all_eq_true.mp ha.ofCore o ho]
  · have hold (hv : v.voter = p.core.id ∧ p.Voted v.blkHash) :
        v.voter = p'.core.id ∧ p'.Voted v.blkHash := ⟨by rw [ha.le.id, hv.1], ha.le.voted hv.2⟩
    rcases hmem with hmem | hmem
    · rw [hlog] at hmem
      rcases List.mem_append.mp hmem with hmem | hmem
      · exact hold (h.votes last v (Or.inl hmem))
      · have := List.all_eq_true.mp ha.ofCore _ hmem
        cases this
    · rcases List.mem_append.mp (htasks hmem) with hmem | hmem
      · obtain ⟨hid, hvoted⟩ := ha.votes last v hmem
        exact ⟨by rw [ha.le.id, hid], hvoted⟩
      · exact hold (h.votes last v (Or.inr (hrest hmem)))
  · rcases ha.stuck hst with hst | ⟨f, hexit, hne⟩
    · have hhalt := h.stuck hst
      unfold Replica.absorb
      dsimp only
      split
      · exact hhalt
      · exact hhalt
      · rfl
    · unfold Replica.absorb
      dsimp only
      split
      · rename_i hx
        rw [hexit] at hx
        cases hx
      · rename_i e hx
        rw [hexit] at hx
        exact absurd (Option.some.inj hx) (hne e)
      · rfl
  · unfold Replica.absorb at hbr
    dsimp only at hbr
    split at hbr
    · exact ha.breached (Or.inl (h.breached hbr))
    · rename_i e hx
      rcases List.mem_cons.mp hbr with rfl | hbr
      · exact ha.breached (Or.inr hx)
      · exact ha.breached (Or.inl (h.breached hbr))
    · exact ha.breached (Or.inl (h.breached hbr))

omit [DecidableEq H] in
theorem Sim.consensusLog_eq (h : nd.Sim p) : consensusLog nd.log = consensusLog p.outs := by
  rw [h.outs, consensusLog, consensusLog, List.filterMap_filter]
  congr 1
  funext o
  cases o <;> rfl

omit [DecidableEq H] in
/-- A step that leaves the core and makes none of its calls again. -/
theorem Sim.local (h : nd.Sim p) (hcore : nd'.core = nd.core) (hhalt : nd'.halted = nd.halted)
    (hthrown : nd'.thrown = nd.thrown)
    (hlog : nd'.log.filter Output.ofCore = nd.log.filter Output.ofCore)
    (hvotes : ∀ last v, Output.doVote last v ∈ nd'.log ∨ Task.doVote last v ∈ nd'.tasks →
      Output.doVote last v ∈ nd.log ∨ Task.doVote last v ∈ nd.tasks) : nd'.Sim p where
  core := by rw [hcore, h.core]
  outs := by rw [hlog, h.outs]
  votes last v hmem := h.votes last v (hvotes last v hmem)
  stuck hst := by rw [hhalt, h.stuck hst]
  breached hbr := h.breached (by rwa [← hthrown])

end Replica

variable [DecidableEq Sig]

/-- The system and what is kept of its replicas. -/
structure Sys.Sim (P : Primitives H Sig) (D : Deployment) (R : Rules H Sig)
    (dummy : QuorumCert H Sig) (s : Sys H Sig) (w : Parties H Sig) : Prop where
  reached : w.Reached P D R dummy
  node : ∀ r, D.Correct r → (s.node r).Sim (w r)

namespace Sys

variable {P : Primitives H Sig} {D : Deployment} {R : Rules H Sig} {dummy : QuorumCert H Sig}
  {s s' : Sys H Sig} {w : Parties H Sig} {r : ReplicaID}

omit [DecidableEq Sig] in
theorem init_sim (P : Primitives H Sig) (D : Deployment) (R : Rules H Sig)
    (dummy : QuorumCert H Sig) : (init P D dummy).Sim P D R dummy (Parties.init P D dummy) where
  reached := .refl
  node r _ :=
    { core := rfl, outs := rfl
      votes := fun last v h => by simp [init, Replica.init] at h
      stuck := fun h => by cases h
      breached := fun h => by simp [init, Replica.init] at h }

namespace Sim

omit [DecidableEq Sig] in
theorem signed (h : s.Sim P D R dummy w) (hr : D.Correct r) {b : H} (hs : s.signed r b = true) :
    (w r).Voted b := by
  obtain ⟨o, ho, hb⟩ := List.any_eq_true.mp hs
  cases o with
  | doVote last v =>
    have hb' : v.blkHash = b := by simpa using hb
    rw [← hb']
    exact ((h.node r hr).votes last v (Or.inl ho)).2
  | _ => simp at hb

omit [DecidableEq Sig] in
theorem unforged (h : s.Sim P D R dummy w) {rid : ReplicaID} {b : H} {sig : Sig}
    (hu : s.unforged P D rid b sig = true) (hver : P.verifySig rid b sig = true)
    (hc : D.Correct rid) : (w rid).Voted b := by
  simp only [Sys.unforged, hver, hc, Bool.not_true, decide_true, Bool.false_or] at hu
  exact h.signed hc hu

omit [DecidableEq Sig] in
theorem qcUnforged (h : s.Sim P D R dummy w) {qc : QuorumCert H Sig}
    (hu : s.qcUnforged P D qc = true) : w.Unforged P D qc :=
  fun _ _ hmem hver hc => h.unforged (List.all_eq_true.mp hu _ hmem) hver hc

theorem blockSent (h : s.Sim P D R dummy w) {src : ReplicaID} {data : BlockData H Sig}
    (hlt : src < D.n) (hsent : s.blockSent P D src data = true) : w.Sent P D data := by
  refine ⟨src, hlt, fun hc => ?_⟩
  simp only [Sys.blockSent, hc, decide_true, Bool.not_true, Bool.false_or,
    ← (h.node src hc).core] at hsent
  cases hb : (w src).core.storage (P.hashBlock data) with
  | none => simp [hb] at hsent
  | some b => exact ⟨b, rfl, by simpa [hb] using hsent⟩

omit [DecidableEq Sig] in
theorem set (h : s.Sim P D R dummy w) {p' : Party H Sig} {nd : Replica H Sig}
    (hacts : Party.Acts P D R w r p') (hsim : nd.Sim p') :
    ∃ w', Relation.ReflTransGen (Parties.Step P D R) w w' ∧ (s.set r nd).Sim P D R dummy w' := by
  refine ⟨_, hacts, h.reached.trans hacts, fun r' hr' => ?_⟩
  by_cases hrr : r' = r
  · subst hrr
    simpa [Sys.set] using hsim
  · simpa [Sys.set, hrr] using h.node r' hr'

end Sim

theorem step_inv {e : Event H Sig} (h : s.step P D e = some s') :
    D.Correct e.at_ ∧ ∃ nd, s.handle P D e = some nd ∧ s' = s.set e.at_ nd := by
  unfold step at h
  split at h
  · rename_i hc
    obtain ⟨nd, hnd, rfl⟩ := Option.map_eq_some_iff.mp h
    exact ⟨hc, nd, hnd, rfl⟩
  · cases h

omit [DecidableEq Sig] in
/-- A call at a replica between two handlers, or at the point where one calls. -/
theorem Sim.call (h : s.Sim P D R dummy w) (hr : D.Correct r) (hhalt : (s.node r).halted = false)
    {nd : Replica H Sig} (hnd : nd.Sim (w r)) {i : Call H Sig} (hg : Party.Guard P D w r i)
    (hf : (w r).core.Follows P R i) {rest : List (Task H Sig)} (hrest : rest ⊆ nd.tasks)
    (ord : List H) :
    ∃ w', Relation.ReflTransGen (Parties.Step P D R) w w' ∧
      (s.set r (nd.absorb ord rest ((w r).core.call P i))).Sim P D R dummy w' := by
  have hstuck : (w r).stuck = false := by
    by_contra hst
    rw [(h.node r hr).stuck (by simpa using hst)] at hhalt
    cases hhalt
  obtain ⟨p', hacts, hafter⟩ := Party.Acts.call hr hstuck (h.reached.valid hr) hg hf
  exact h.set hacts (hnd.absorb hafter hrest ord)

/-- The next task of a handler, but for a vote that a replica hands to itself. -/
theorem runTask_sim {nd nd' : Replica H Sig} {p : Party H Sig} (h : nd.Sim p) {ord : List H}
    (hrun : nd.runTask ord false = some nd') : nd'.Sim p := by
  unfold Replica.runTask at hrun
  split at hrun
  · cases hrun
  · rename_i blk rest htasks
    split at hrun
    · obtain rfl := Option.some.inj hrun
      exact h.local rfl rfl rfl rfl fun last v hv => by simpa [htasks] using hv
    · obtain rfl := Option.some.inj hrun
      exact h.local rfl rfl rfl rfl fun last v hv => by simpa [htasks] using hv
  · rename_i prop rest htasks
    obtain rfl := Option.some.inj hrun
    exact h.local rfl rfl rfl rfl fun last v hv => by simpa [htasks] using hv
  · rename_i prop rest htasks
    obtain rfl := Option.some.inj hrun
    exact h.local rfl rfl rfl rfl fun last v hv => by simpa [htasks] using hv
  · rename_i last vote rest htasks
    obtain rfl := Option.some.inj hrun
    refine h.local rfl rfl rfl ?_ fun last' v hv => ?_
    · simp [Output.ofCore]
    · simp only [List.mem_append, List.mem_singleton, Output.doVote.injEq] at hv
      simp only [htasks, List.mem_cons, Task.doVote.injEq]
      tauto
  · rename_i props rest htasks
    obtain rfl := Option.some.inj hrun
    refine h.local rfl rfl rfl ?_ fun last' v hv => ?_
    · simp [Output.ofCore]
    · simpa [htasks] using hv
  · rename_i rest htasks
    obtain rfl := Option.some.inj hrun
    exact h.local rfl rfl rfl rfl fun last v hv => by simpa [htasks] using hv

/-- Every step of the system is matched by acts of its replicas. -/
theorem Sim.step (h : s.Sim P D R dummy w) {e : Event H Sig} (hstep : s.step P D e = some s')
    (hf : ∀ i, e.call? = some i → e.heeded P = true → (s.node e.at_).core.Follows P R i) :
    ∃ w', Relation.ReflTransGen (Parties.Step P D R) w w' ∧ s'.Sim P D R dummy w' := by
  obtain ⟨hr, nd, hnd, rfl⟩ := step_inv hstep
  have hsim := h.node _ hr
  have hcore := hsim.core
  rw [← hcore] at hf
  cases e with
  | fetch r src data =>
    simp only [Event.at_] at hr hsim hcore hf ⊢
    simp only [handle, Option.ite_none_right_eq_some, Bool.and_eq_true, decide_eq_true_eq,
      Option.some.injEq] at hnd
    obtain ⟨⟨⟨⟨hidle, hlt⟩, hsent⟩, hqc⟩, rfl⟩ := hnd
    obtain ⟨hhalt, htasks⟩ := Replica.idle_iff.mp hidle
    have hg : Party.Guard P D w r (.addBlk data) := ⟨h.blockSent hlt hsent, h.qcUnforged hqc⟩
    obtain ⟨w', hacts, hw'⟩ := h.call hr hhalt hsim hg (hf _ rfl rfl) (List.Subset.refl _) []
    refine ⟨w', hacts, ?_⟩
    have heq : (s.node r).absorb [] (s.node r).tasks ((w r).core.call P (.addBlk data)) =
        { s.node r with core := (s.node r).core.addBlk P data.fetched } := by
      rw [hcore]
      simp [Replica.absorb, Core.call, Res.ok]
    rwa [← heq]
  | deliver r blk =>
    simp only [Event.at_] at hr hsim hcore hf ⊢
    simp only [handle, Option.ite_none_right_eq_some, Bool.and_eq_true, Option.some.injEq] at hnd
    obtain ⟨⟨hidle, hdel⟩, rfl⟩ := hnd
    obtain ⟨hhalt, htasks⟩ := Replica.idle_iff.mp hidle
    rw [← hcore] at hdel ⊢
    exact h.call hr hhalt hsim (i := .onDeliverBlk blk) hdel (hf _ rfl rfl) (List.nil_subset _) []
  | receiveProposal r src ord prop =>
    simp only [Event.at_] at hr hsim hcore hf ⊢
    simp only [handle, Option.ite_none_right_eq_some, Bool.and_eq_true, decide_eq_true_eq,
      Option.some.injEq] at hnd
    obtain ⟨⟨⟨⟨⟨⟨⟨hidle, hprop⟩, hsrc⟩, _⟩, _⟩, _⟩, _⟩, rfl⟩ := hnd
    obtain ⟨hhalt, htasks⟩ := Replica.idle_iff.mp hidle
    rw [← hcore]
    have hg : Party.Guard P D w r (.onReceiveProposal prop) := by
      change prop.proposer ≠ r
      rwa [hprop]
    exact h.call hr hhalt hsim hg (hf _ rfl rfl) (List.nil_subset _) ord
  | receiveVote r ord vote =>
    simp only [Event.at_] at hr hsim hcore hf ⊢
    simp only [handle, Option.ite_none_right_eq_some, Bool.and_eq_true, decide_eq_true_eq,
      Option.some.injEq] at hnd
    obtain ⟨⟨⟨⟨⟨⟨hidle, hlt⟩, hver⟩, hobj⟩, hunf⟩, _⟩, rfl⟩ := hnd
    obtain ⟨hhalt, htasks⟩ := Replica.idle_iff.mp hidle
    rw [← hcore]
    have hg : Party.Guard P D w r (.onReceiveVote vote) := by
      refine ⟨hlt, fun hc => ?_⟩
      rw [← hobj]
      exact h.unforged hunf hver hc
    exact h.call hr hhalt hsim hg (hf _ rfl rfl) (List.nil_subset _) ord
  | receiveSlice r src hash slice =>
    simp only [Event.at_] at hr hsim hcore hf ⊢
    simp only [handle, Option.ite_none_right_eq_some, Bool.and_eq_true, decide_eq_true_eq] at hnd
    obtain ⟨⟨⟨⟨hidle, _⟩, _⟩, _⟩, hnd⟩ := hnd
    obtain ⟨hhalt, htasks⟩ := Replica.idle_iff.mp hidle
    split at hnd
    · rename_i hhash
      obtain rfl := Option.some.inj hnd
      rw [← hcore]
      exact h.call hr hhalt hsim (i := .onReceiveSlice slice) trivial
        (hf _ rfl (decide_eq_true hhash)) (List.nil_subset _) []
    · obtain rfl := Option.some.inj hnd
      exact h.set (.refl w r) hsim
  | propose r ord cmds parents extra =>
    simp only [Event.at_] at hr hsim hcore hf ⊢
    simp only [handle, Option.ite_none_right_eq_some, Bool.and_eq_true, Option.some.injEq] at hnd
    obtain ⟨⟨hat, hpar⟩, rfl⟩ := hnd
    have hhalt : (s.node r).halted = false := by
      simp only [Replica.atPacemaker, Bool.and_eq_true, Bool.not_eq_true'] at hat
      exact hat.1
    rw [← hcore] at hpar ⊢
    exact h.call hr hhalt hsim (i := .onPropose cmds parents extra) hpar (hf _ rfl rfl)
      (List.Subset.refl _) ord
  | asyncQcFinish r blk =>
    simp only [Event.at_] at hr hsim hcore hf ⊢
    simp only [handle, Option.ite_none_right_eq_some, Option.some.injEq] at hnd
    obtain ⟨_, rfl⟩ := hnd
    exact h.set (.refl w r) (hsim.local rfl rfl rfl rfl fun _ _ hv => hv)
  | runTask r ord toSelf =>
    simp only [Event.at_] at hr hsim hcore hf ⊢
    simp only [handle] at hnd
    split at hnd
    · cases hnd
    rename_i hhalt
    cases toSelf with
    | false => exact h.set (.refl w r) (runTask_sim hsim hnd)
    | true =>
      rcases Replica.runTask_self hnd with hnd | ⟨last, vote, rest, htasks, rfl⟩
      · exact h.set (.refl w r) (runTask_sim hsim hnd)
      obtain ⟨hid, hvoted⟩ := hsim.votes last vote (Or.inr (by rw [htasks]; exact List.mem_cons_self))
      have hvoter : vote.voter = r := hid.trans (h.reached.valid hr).id
      have hg : Party.Guard P D w r (.onReceiveVote vote) := by
        refine ⟨by rw [hvoter]; exact hr.1, fun _ => ?_⟩
        rw [hvoter]
        exact hvoted
      have hsim₁ : ({ s.node r with log := (s.node r).log ++ [.doVote last vote] } :
          Replica H Sig).Sim (w r) := by
        refine hsim.local rfl rfl rfl (by simp [Output.ofCore]) fun last' v hv => ?_
        simp only [List.mem_append, List.mem_singleton, Output.doVote.injEq] at hv
        rcases hv with (hv | ⟨rfl, rfl⟩) | hv
        · exact Or.inl hv
        · right
          rw [htasks]
          exact List.mem_cons_self
        · exact Or.inr hv
      have hrest : rest ⊆ (s.node r).tasks := by
        rw [htasks]
        exact List.subset_cons_self _ _
      have hcall := h.call hr (by simpa using hhalt) hsim₁ hg trivial hrest ord
      rwa [hcore] at hcall

/-- A run whose calls follow the rules is matched by acts of the replicas. -/
theorem Sim.reaches {cond : Sys H Sig → Event H Sig → Prop} (h : s.Sim P D R dummy w)
    (hr : Transition.Reaches (Sys.step P D) cond s s')
    (hf : ∀ s e s' w i, s.Sim P D R dummy w → cond s e → s.step P D e = some s' →
      e.call? = some i → e.heeded P = true → (s.node e.at_).core.Follows P R i) :
    ∃ w', Relation.ReflTransGen (Parties.Step P D R) w w' ∧ s'.Sim P D R dummy w' :=
  hr.simulated h fun s e s' w hsim hc hs =>
    hsim.step hs fun i hi hheed => hf s e s' w i hsim hc hs hi hheed

theorem ReachableBy.refined {cond : Sys H Sig → Event H Sig → Prop}
    (h : s.ReachableBy P D dummy cond)
    (hf : ∀ s e s' w i, s.Sim P D R dummy w → cond s e → s.step P D e = some s' →
      e.call? = some i → e.heeded P = true → (s.node e.at_).core.Follows P R i) :
    ∃ w, s.Sim P D R dummy w := by
  obtain ⟨w, _, hw⟩ := (init_sim P D R dummy).reaches h hf
  exact ⟨w, hw⟩

omit [DecidableEq Sig] in
theorem follows_any (c : Core H Sig) (i : Call H Sig) : c.Follows P (Rules.any H Sig) i := by
  cases i with
  | onReceiveProposal prop => exact ⟨fun _ => trivial, fun _ _ _ => trivial, fun _ => trivial⟩
  | onReceiveSlice s => exact trivial
  | onPropose cmds parents extra =>
    exact fun _ _ => ⟨trivial, fun _ _ _ => trivial, fun _ _ _ => trivial, fun _ _ _ _ => trivial⟩
  | _ => exact trivial

omit [DecidableEq Sig] in
/-- Nothing is asked of a call but that `update` has done its part before a vote. -/
theorem follows_raised (c : Core H Sig) (i : Call H Sig) :
    c.Follows P ((Rules.any H Sig).raised P) i := by
  cases i with
  | onReceiveProposal prop =>
    exact ⟨fun _ => trivial, fun _ _ _ => trivial, fun hr => ⟨trivial, hr⟩⟩
  | onReceiveSlice s => exact trivial
  | onPropose cmds parents extra =>
    exact fun _ _ => ⟨trivial, fun _ _ _ => trivial, fun _ _ _ => trivial,
      fun _ _ _ hr => ⟨trivial, hr⟩⟩
  | _ => exact trivial

theorem Reachable.refined (h : s.Reachable P D dummy) :
    ∃ w, s.Sim P D ((Rules.any H Sig).raised P) dummy w :=
  ReachableBy.refined h fun s e _ _ i _ _ _ _ _ => follows_raised (s.node e.at_).core i

omit [DecidableEq Sig] in
/-- The votes that certify a block are a quorum. -/
theorem Sim.quorum (h : s.Sim P D R dummy w) {b : H} (hb : s.Certified D b) : w.Quorum D b := by
  obtain ⟨i, Q, hi, hQ, hcard, hsig⟩ := hb
  refine ⟨Q, hQ, ?_, fun r hr hc => h.signed hc (hsig r hr hc)⟩
  rwa [← (h.node i hi).core, (h.reached.valid hi).nmajority] at hcard

end Sys
end LibHotStuff
