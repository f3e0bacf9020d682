import LibHotStuff.Model.Network
import LibHotStuff.Proofs.ExecutionChain

namespace LibHotStuff

open Chain

variable {H Sig : Type}

/-- A replica as far as its votes and its commits go: the core, what it has put out, and the
blocks it has voted for with the lock it held then, the last one first. `stuck` is set when a
commit has been cut short, `breached` when `update` has thrown "safety breached". -/
structure Party (H Sig : Type) where
  core : Core H Sig
  outs : List (Output H Sig)
  votes : List (H × H)
  stuck : Bool
  breached : Bool

/-- The replicas of a deployment. -/
abbrev Parties (H Sig : Type) := ReplicaID → Party H Sig

namespace Party

variable {p p' : Party H Sig}

def Voted (p : Party H Sig) (h : H) : Prop := ∃ l, (h, l) ∈ p.votes

/-- What only grows. -/
structure Le (p p' : Party H Sig) : Prop where
  id : p'.core.id = p.core.id
  config : p'.core.config = p.core.config
  rse : p'.core.rse = p.core.rse
  delivered : ∀ h, p.core.delivered h = true → p'.core.delivered h = true
  votes : p.votes <:+ p'.votes
  outs : p.outs <+: p'.outs

theorem Le.refl (p : Party H Sig) : p.Le p :=
  ⟨rfl, rfl, rfl, fun _ h => h, List.suffix_rfl, List.prefix_rfl⟩

theorem Le.trans {p'' : Party H Sig} (h : p.Le p') (h' : p'.Le p'') : p.Le p'' :=
  ⟨h'.id.trans h.id, h'.config.trans h.config, h'.rse.trans h.rse,
    fun x hx => h'.delivered x (h.delivered x hx), h.votes.trans h'.votes, h.outs.trans h'.outs⟩

theorem Le.voted (h : p.Le p') {x : H} (hx : p.Voted x) : p'.Voted x := by
  obtain ⟨l, hl⟩ := hx
  exact ⟨l, h.votes.subset hl⟩

end Party

namespace Parties

/-- A block that some replica may have sent: a correct one sends what it has stored. -/
def Sent (P : Primitives H Sig) (D : Deployment) (w : Parties H Sig) (data : BlockData H Sig) :
    Prop :=
  ∃ src < D.n, D.Correct src → ∃ b, (w src).core.storage (P.hashBlock data) = some b ∧
    b.toBlockData = data

/-- The signatures of correct replicas in a certificate are votes they have cast. -/
def Unforged (P : Primitives H Sig) (D : Deployment) (w : Parties H Sig) (qc : QuorumCert H Sig) :
    Prop :=
  ∀ rid sig, (rid, sig) ∈ qc.signers → P.verifySig rid qc.objHash sig = true → D.Correct rid →
    (w rid).Voted qc.objHash

/-- `n - f` replicas of which the correct ones have voted for `h`. -/
def Quorum (D : Deployment) (w : Parties H Sig) (h : H) : Prop :=
  ∃ Q : Finset ReplicaID, Q ⊆ Finset.range D.n ∧ D.n - (D.n - 1) / 3 ≤ Q.card ∧
    ∀ r ∈ Q, D.Correct r → (w r).Voted h

variable {P : Primitives H Sig} {D : Deployment} {w w' : Parties H Sig}

theorem Quorum.mono (hle : ∀ r, (w r).Le (w' r)) {h : H} (hq : w.Quorum D h) : w'.Quorum D h := by
  obtain ⟨Q, hQ, hcard, hv⟩ := hq
  exact ⟨Q, hQ, hcard, fun r hr hc => (hle r).voted (hv r hr hc)⟩

theorem Unforged.mono (hle : ∀ r, (w r).Le (w' r)) {qc : QuorumCert H Sig}
    (hq : w.Unforged P D qc) : w'.Unforged P D qc :=
  fun rid sig hmem hver hc => (hle rid).voted (hq rid sig hmem hver hc)

end Parties

variable [DecidableEq H]

/-- What a correct replica does, in elementary acts. -/
inductive Party.Act (P : Primitives H Sig) (D : Deployment) (R : Rules H Sig)
    (w : Parties H Sig) (p : Party H Sig) : Party H Sig → Prop
  | move {outs : List (Output H Sig)} {c' : Core H Sig} : p.core.Move P R outs c' →
    Act P D R w p { p with core := c', outs := p.outs ++ outs }
  /-- a commit that does not return -/
  | cut {nblk b : H} {r : Res H Sig} {done : List H} {f : Fault} :
    p.core.CommitsTo P nblk b r done → R.commit p.core nblk → r.exit = some f →
    Act P D R w p { p with core := r.core, outs := p.outs ++ r.outs, stuck := true }
  | breach {nblk b e : H} : p.core.Decides P nblk b →
    up P.parent (p.core.height b - p.core.height p.core.bExec) b = some e → e ≠ p.core.bExec →
    Act P D R w p { p with breached := true }
  | vote {blk : H} {s : Slice H} : p.core.Approves P blk → R.vote p.core blk s →
    .doBroadcastSlice s ∈ p.outs →
    Act P D R w p { p with
      core := { p.core with vheight := p.core.height blk }
      votes := (blk, p.core.bLock) :: p.votes }
  | store {data : BlockData H Sig} : w.Sent P D data → w.Unforged P D data.qc →
    Act P D R w p { p with core := p.core.addBlk P data.fetched }
  | deliver {blk : H} : Replica.deliverable P p.core blk = true →
    Act P D R w p { p with core := (p.core.onDeliverBlk blk).core }
  | count {v : Vote H Sig} {c' : Core H Sig} : v.voter < D.n →
    (D.Correct v.voter → (w v.voter).Voted v.blkHash) → p.core.Counts P v c' →
    Act P D R w p { p with core := c' }
  /-- the votes counted for a block are a certificate -/
  | raise {blk : H} {qc : QuorumCert H Sig} : p.core.delivered blk = true →
    (p.core.voters blk).length = p.core.config.nmajority →
    p.core.height p.core.hqc.1 < p.core.height blk → qc.objHash = blk →
    Act P D R w p { p with
      core := { p.core with hqc := (blk, qc) }, outs := p.outs ++ [.onHqcUpdate] }

namespace Parties

/-- One act of a correct replica that is not stuck. -/
inductive Step (P : Primitives H Sig) (D : Deployment) (R : Rules H Sig) :
    Parties H Sig → Parties H Sig → Prop
  | act {w : Parties H Sig} {r : ReplicaID} {p : Party H Sig} : D.Correct r →
    (w r).stuck = false → (w r).Act P D R w p → Step P D R w (Function.update w r p)

def init (P : Primitives H Sig) (D : Deployment) (dummy : QuorumCert H Sig) : Parties H Sig :=
  fun r =>
    { core := (Core.new P r dummy).start D.replicas (D.listenAddr r), outs := [], votes := []
      stuck := false, breached := false }

/-- The states that are reached. -/
def Reached (P : Primitives H Sig) (D : Deployment) (R : Rules H Sig) (dummy : QuorumCert H Sig) :
    Parties H Sig → Prop :=
  Relation.ReflTransGen (Step P D R) (init P D dummy)

end Parties

namespace Core

variable {P : Primitives H Sig} {R : Rules H Sig} {c c' : Core H Sig} {outs : List (Output H Sig)}

/-- What no step of a call changes. -/
structure Stable (c c' : Core H Sig) : Prop where
  id : c'.id = c.id
  vheight : c'.vheight = c.vheight
  config : c'.config = c.config
  rse : c'.rse = c.rse
  delivered : ∀ h, c.delivered h = true → c'.delivered h = true

omit [DecidableEq H] in
theorem Quiet.stable (h : c.Quiet c') : c.Stable c' := ⟨h.id, h.vheight, h.config, h.rse, h.delivered⟩

omit [DecidableEq H] in
theorem Committed.stable {queue done : List H} {r : Res H Sig} (h : c.Committed queue r done) :
    c.Stable r.core :=
  ⟨h.same.id, h.same.vheight, h.same.config, h.same.rse, fun _ hx => by rw [h.sameDag.delivered, hx]⟩

theorem Move.stable (h : Move P R c outs c') : c.Stable c' := by
  cases h with
  | pre h =>
    cases h with
    | shards _ => exact ⟨rfl, rfl, rfl, rfl, fun _ hx => hx⟩
    | slice _ _ => exact ⟨rfl, rfl, rfl, rfl, fun _ hx => hx⟩
    | prepare _ hp =>
      have hconfig := congrArg Core.config hp.rest
      have hrse := congrArg Core.rse hp.rest
      have hvheight := congrArg Core.vheight hp.rest
      exact ⟨hp.id, hvheight, hconfig, hrse, fun _ hx => by rw [hp.sameDag.delivered, hx]⟩
    | propose hg _ _ _ => exact hg.quiet.stable
  | commit hto _ _ =>
    have hs := hto.committed.stable
    exact ⟨hs.id, hs.vheight, hs.config, hs.rse, hs.delivered⟩

/-- A block is delivered only when nothing is missing. -/
theorem deliver_grows (hc : c.WellFormed P) {blk : H}
    (hd : Replica.deliverable P c blk = true) : c.Grows P (c.onDeliverBlk blk).core blk ∧
      (c.onDeliverBlk blk).outs = [] ∧ (c.onDeliverBlk blk).tasks = [] ∧
      ∀ e, (c.onDeliverBlk blk).exit ≠ some (.throw e) := by
  have hthrow : ∀ e, (c.onDeliverBlk blk).exit ≠ some (.throw e) := by
    unfold Replica.deliverable at hd
    unfold onDeliverBlk
    intro e
    split
    · simp [Res.fail]
    · rename_i b hb
      simp only [hb, Bool.and_eq_true] at hd
      obtain ⟨⟨_, hqc⟩, hpar⟩ := hd
      simp only [hpar, hqc, if_true]
      split
      · simp [Res.ok]
      · split
        · simp [Res.fail]
        · simp [Res.ok]
  obtain ⟨hg, ho, ht, _⟩ := onDeliverBlk_grows hc blk rfl (hthrow _)
  exact ⟨hg, ho, ht, hthrow⟩

end Core

/-- What holds of a correct replica. -/
structure Party.Valid (P : Primitives H Sig) (D : Deployment) (r : ReplicaID) (p : Party H Sig) :
    Prop where
  id : p.core.id = r
  nreplicas : p.core.config.nreplicas = D.n
  nmajority : p.core.config.nmajority = D.n - (D.n - 1) / 3
  rse : p.core.rse = RSE.setParams D.n
  wellFormed : p.core.WellFormed P
  executed : p.stuck = false → p.core.Executed P p.outs

namespace Party

variable {P : Primitives H Sig} {D : Deployment} {R : Rules H Sig} {w : Parties H Sig}
  {p p' : Party H Sig} {r : ReplicaID}

theorem Act.wellFormed (h : p.Act P D R w p') (hp : p.core.WellFormed P) :
    p'.core.WellFormed P := by
  cases h with
  | move hm => exact hm.wellFormed hp
  | cut hto _ _ => exact hto.committed.wellFormed hp (hto.queue_delivered hp).2
  | breach => exact hp
  | vote => exact hp.with_vheight _
  | store => exact (Core.addBlk_grows hp _).1.wellFormed
  | deliver hd => exact (Core.deliver_grows hp hd).1.wellFormed
  | count _ _ hk => exact hk.wellFormed
  | raise hd _ _ hobj => exact hp.with_hqc hd hobj

theorem Act.le (h : p.Act P D R w p') (hp : p.core.WellFormed P) : p.Le p' := by
  cases h with
  | move hm =>
    have hs := hm.stable
    exact ⟨hs.id, hs.config, hs.rse, hs.delivered, List.suffix_rfl, List.prefix_append _ _⟩
  | cut hto _ _ =>
    have hs := hto.committed.stable
    exact ⟨hs.id, hs.config, hs.rse, hs.delivered, List.suffix_rfl, List.prefix_append _ _⟩
  | breach => exact ⟨rfl, rfl, rfl, fun _ hx => hx, List.suffix_rfl, List.prefix_rfl⟩
  | vote => exact ⟨rfl, rfl, rfl, fun _ hx => hx, List.suffix_cons _ _, List.prefix_rfl⟩
  | @store data _ _ =>
    have hs := (Core.addBlk_grows hp data).1.quiet.stable
    exact ⟨hs.id, hs.config, hs.rse, hs.delivered, List.suffix_rfl, List.prefix_rfl⟩
  | deliver hd =>
    have hs := (Core.deliver_grows hp hd).1.quiet.stable
    exact ⟨hs.id, hs.config, hs.rse, hs.delivered, List.suffix_rfl, List.prefix_rfl⟩
  | count _ _ hk =>
    have hid := congrArg Core.id hk.rest
    have hconfig := congrArg Core.config hk.rest
    have hrse := congrArg Core.rse hk.rest
    exact ⟨hid, hconfig, hrse, fun _ hx => by rw [hk.sameDag.delivered, hx], List.suffix_rfl,
      List.prefix_rfl⟩
  | raise => exact ⟨rfl, rfl, rfl, fun _ hx => hx, List.suffix_rfl, List.prefix_append _ _⟩

/-- The acts that move `hqc`, `b_lock` and `b_exec`. -/
theorem Act.marks_cases (h : p.Act P D R w p') (hp : p.core.WellFormed P) :
    (p'.core.hqc = p.core.hqc ∧ p'.core.bLock = p.core.bLock ∧ p'.core.bExec = p.core.bExec) ∨
    (∃ nblk c' outs, p.core.delivered nblk = true ∧ p.core.Prepared P nblk c' outs ∧
      p' = { p with core := c', outs := p.outs ++ outs }) ∨
    (∃ nblk b res done, p.core.CommitsTo P nblk b res done ∧ res.exit = none ∧
      p' = { p with core := { res.core with bExec := b }, outs := p.outs ++ res.outs }) ∨
    ∃ blk qc, p.core.delivered blk = true ∧ p.core.height p.core.hqc.1 < p.core.height blk ∧
      p' = { p with
        core := { p.core with hqc := (blk, qc) }, outs := p.outs ++ [.onHqcUpdate] } := by
  cases h with
  | move hm =>
    cases hm with
    | pre hm =>
      cases hm with
      | shards _ => exact Or.inl ⟨rfl, rfl, rfl⟩
      | slice _ _ => exact Or.inl ⟨rfl, rfl, rfl⟩
      | prepare hd hprep => exact Or.inr (Or.inl ⟨_, _, _, hd, hprep, rfl⟩)
      | propose hg _ _ _ => exact Or.inl ⟨hg.quiet.hqc, hg.quiet.bLock, hg.quiet.bExec⟩
    | commit hto _ hexit => exact Or.inr (Or.inr (Or.inl ⟨_, _, _, _, hto, hexit, rfl⟩))
  | cut hto _ _ =>
    have hs := hto.committed.same
    exact Or.inl ⟨hs.hqc, hs.bLock, hs.bExec⟩
  | breach _ _ _ => exact Or.inl ⟨rfl, rfl, rfl⟩
  | vote _ _ _ => exact Or.inl ⟨rfl, rfl, rfl⟩
  | @store data _ _ =>
    have hq := (Core.addBlk_grows hp data).1.quiet
    exact Or.inl ⟨hq.hqc, hq.bLock, hq.bExec⟩
  | deliver hd =>
    have hq := (Core.deliver_grows hp hd).1.quiet
    exact Or.inl ⟨hq.hqc, hq.bLock, hq.bExec⟩
  | count _ _ hk =>
    have hhqc := congrArg Core.hqc hk.rest
    have hlock := congrArg Core.bLock hk.rest
    have hexec := congrArg Core.bExec hk.rest
    exact Or.inl ⟨hhqc, hlock, hexec⟩
  | raise hd _ hlt _ => exact Or.inr (Or.inr (Or.inr ⟨_, _, hd, hlt, rfl⟩))

theorem Act.executed (h : p.Act P D R w p') (hp : p.core.WellFormed P)
    (hex : p.core.Executed P p.outs) (hs : p'.stuck = false) : p'.core.Executed P p'.outs := by
  have silent {c : Core H Sig} (hx : c.bExec = p.core.bExec)
      (hdec : ∀ h, c.decided h = p.core.decided h) : c.Executed P p.outs := by
    have hlog : c.Executed P (p.outs ++ []) := hex.silent hx hdec rfl rfl
    rwa [List.append_nil] at hlog
  cases h with
  | move hm => exact hm.executed hp hex
  | cut => cases hs
  | breach => exact hex
  | vote => exact silent rfl fun _ => rfl
  | @store data _ _ =>
    have hq := (Core.addBlk_grows hp data).1.quiet
    exact silent hq.bExec hq.decided
  | deliver hd =>
    have hq := (Core.deliver_grows hp hd).1.quiet
    exact silent hq.bExec hq.decided
  | count _ _ hk =>
    have hexec := congrArg Core.bExec hk.rest
    exact silent hexec hk.decided
  | raise => exact hex.silent rfl (fun _ => rfl) rfl rfl

theorem Act.valid (h : p.Act P D R w p') (hs : p.stuck = false) (hp : p.Valid P D r) :
    p'.Valid P D r where
  id := (h.le hp.wellFormed).id.trans hp.id
  nreplicas := (congrArg _ (h.le hp.wellFormed).config).trans hp.nreplicas
  nmajority := (congrArg _ (h.le hp.wellFormed).config).trans hp.nmajority
  rse := (h.le hp.wellFormed).rse.trans hp.rse
  wellFormed := h.wellFormed hp.wellFormed
  executed := h.executed hp.wellFormed (hp.executed hs)

end Party

namespace Parties

variable {P : Primitives H Sig} {D : Deployment} {R : Rules H Sig} {dummy : QuorumCert H Sig}
  {w w' : Parties H Sig}

/-- One other address of the deployment is counted for each replica but the own one. -/
theorem others_length (D : Deployment) {r : ReplicaID} (hr : r < D.n) :
    (D.replicas.filter (· ≠ D.listenAddr r)).length = D.n - 1 := by
  have hone := D.listensOnce r hr
  have hsum := List.length_eq_countP_add_countP (· == D.listenAddr r) (l := D.replicas)
  simp only [beq_iff_eq] at hsum
  rw [List.count] at hone
  rw [← List.countP_eq_length_filter, Deployment.n]
  simp only [ne_eq]
  omega

theorem init_valid (P : Primitives H Sig) (D : Deployment) (dummy : QuorumCert H Sig)
    {r : ReplicaID} (hr : r < D.n) : (init P D dummy r).Valid P D r := by
  have h := Core.start_started P r dummy D.replicas (D.listenAddr r)
  rw [others_length D hr] at h
  exact ⟨h.id, h.nreplicas, h.nmajority, h.rse, h.wellFormed, fun _ => h.executed⟩

theorem Reached.valid (h : Reached P D R dummy w) {r : ReplicaID} (hr : D.Correct r) :
    (w r).Valid P D r := by
  induction h with
  | refl => exact init_valid P D dummy hr.1
  | tail _ hstep ih =>
    cases hstep with
    | @act r' p _ hs hact =>
      by_cases hrr : r = r'
      · subst hrr
        rw [Function.update_self]
        exact hact.valid hs ih
      · rw [Function.update_of_ne hrr]
        exact ih

/-- A step leaves every correct replica as it was or lets it grow. -/
theorem Step.le (hstep : Step P D R w w') (hw : ∀ r, D.Correct r → (w r).Valid P D r)
    (r : ReplicaID) : (w r).Le (w' r) := by
  cases hstep with
  | @act r' p hr' _ hact =>
    by_cases hrr : r = r'
    · subst hrr
      rw [Function.update_self]
      exact hact.le (hw r hr').wellFormed
    · rw [Function.update_of_ne hrr]
      exact .refl _

/-- What a correct replica keeps whatever it does, and whatever the others add, holds of it in
every state reached. -/
theorem Reached.invariant {J : Parties H Sig → ReplicaID → Party H Sig → Prop}
    (h : Reached P D R dummy w)
    (hinit : ∀ r, D.Correct r → J (init P D dummy) r (init P D dummy r))
    (hmono : ∀ w w' r p, (∀ r, (w r).Le (w' r)) → J w r p → J w' r p)
    (hact : ∀ w r p, Reached P D R dummy w → (∀ r, D.Correct r → J w r (w r)) → D.Correct r →
      (w r).stuck = false → (w r).Act P D R w p → (∀ i, (w i).Le (Function.update w r p i)) →
        J (Function.update w r p) r p) :
    ∀ r, D.Correct r → J w r (w r) := by
  induction h with
  | refl => exact hinit
  | tail hreach hstep ih =>
    have hle := hstep.le fun r hr => Reached.valid hreach hr
    cases hstep with
    | @act r' p hr' hs ha =>
      intro r hr
      by_cases hrr : r = r'
      · subst hrr
        rw [Function.update_self]
        exact hact _ r p hreach ih hr hs ha hle
      · rw [Function.update_of_ne hrr]
        exact hmono _ _ r _ hle (ih r hr)

end Parties
end LibHotStuff
