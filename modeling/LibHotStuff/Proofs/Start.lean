import LibHotStuff.Proofs.Handlers

namespace LibHotStuff

open Chain

variable {H Sig : Type} [DecidableEq H] {P : Primitives H Sig}

namespace Core

/-- A core that knows only genesis and has registered `n` replicas. -/
structure Fresh (P : Primitives H Sig) (id : ReplicaID) (total n : Nat) (c : Core H Sig) :
    Prop where
  id : c.id = id
  b0 : c.b0 = P.genesisHash
  bLock : c.bLock = P.genesisHash
  bExec : c.bExec = P.genesisHash
  vheight : c.vheight = 0
  tails : c.tails = [P.genesisHash]
  nreplicas : c.config.nreplicas = n
  voteDisabled : c.voteDisabled = false
  rse : c.rse = RSE.setParams total
  sc : c.sc = ShardsContainer.setParams total
  futures : ∀ h, c.futures h = none
  others : ∀ h, h ≠ P.genesisHash → c.storage h = none
  genesis : ∃ g, c.storage P.genesisHash = some g ∧ g.parents = [] ∧ g.height = 0 ∧
    g.delivered = true ∧ g.decision = true

/-- A core after `start`. -/
structure Started (P : Primitives H Sig) (id : ReplicaID) (total nmajority : Nat)
    (c : Core H Sig) : Prop extends Fresh P id total total c where
  nmajority : c.config.nmajority = nmajority
  hqc : c.hqc.1 = P.genesisHash ∧ c.hqc.2.objHash = P.genesisHash
  certified : ∃ g, c.storage P.genesisHash = some g ∧ g.qcRef = some P.genesisHash ∧
    g.selfQc = some c.hqc.2

theorem Fresh.addReplica {id : ReplicaID} {total n : Nat} {c : Core H Sig}
    (h : c.Fresh P id total n) (i : ReplicaID) : (c.addReplica i).Fresh P id total (n + 1) := by
  obtain ⟨g, hg, hfields⟩ := h.genesis
  have hput := modify_eq_put (h := c.b0) (by rw [h.b0]; exact hg)
    fun b => { b with voted := b.voted.insert i }
  refine ⟨h.id, h.b0, h.bLock, h.bExec, h.vheight, h.tails, congrArg (· + 1) h.nreplicas,
    h.voteDisabled, h.rse, h.sc, h.futures, fun x hx => ?_, { g with voted := g.voted.insert i },
    ?_, hfields⟩
  · change (c.modify c.b0 _).storage x = none
    rw [hput, put_of_ne c _ (by rwa [h.b0]), h.others x hx]
  · change (c.modify c.b0 _).storage P.genesisHash = _
    rw [hput, ← h.b0, put_self]

theorem Fresh.foldl {id : ReplicaID} {total n : Nat} {c : Core H Sig} (h : c.Fresh P id total n)
    (l : List ReplicaID) : (l.foldl Core.addReplica c).Fresh P id total (n + l.length) := by
  induction l generalizing c n with
  | nil => exact h
  | cons i l ih =>
    have := ih (h.addReplica i)
    rwa [Nat.add_assoc, Nat.add_comm 1] at this

theorem new_others (P : Primitives H Sig) (id : ReplicaID) (dummy : QuorumCert H Sig) :
    ∀ h, h ≠ P.genesisHash → (Core.new P id dummy).storage h = none := by
  intro h hne
  simp [Core.new, hne]

theorem new_genesis (P : Primitives H Sig) (id : ReplicaID) (dummy : QuorumCert H Sig) :
    ∃ g, (Core.new P id dummy).storage P.genesisHash = some g ∧ g.parents = [] ∧ g.height = 0 ∧
      g.delivered = true ∧ g.decision = true := by
  simp [Core.new]

/-- `start` registers every replica; `nmajority` counts the listed addresses other than the
own one. -/
theorem start_started (P : Primitives H Sig) (id : ReplicaID) (dummy : QuorumCert H Sig)
    (replicas : List NetAddr) (listenAddr : NetAddr) :
    ((Core.new P id dummy).start replicas listenAddr).Started P id replicas.length
      (replicas.length - (replicas.filter (· ≠ listenAddr)).length / 3) := by
  let c₀ : Core H Sig := { Core.new P id dummy with
    rse := RSE.setParams replicas.length, sc := ShardsContainer.setParams replicas.length }
  have hfresh : c₀.Fresh P id replicas.length 0 :=
    ⟨rfl, rfl, rfl, rfl, rfl, rfl, rfl, rfl, rfl, rfl, fun _ => rfl,
      new_others P id dummy, new_genesis P id dummy⟩
  have h := hfresh.foldl (List.range replicas.length)
  rw [List.length_range, Nat.zero_add] at h
  have hstart : (Core.new P id dummy).start replicas listenAddr =
      ((List.range replicas.length).foldl Core.addReplica c₀).onInit
        ((replicas.filter (· ≠ listenAddr)).length / 3) := rfl
  rw [hstart]
  generalize (List.range replicas.length).foldl Core.addReplica c₀ = c at *
  obtain ⟨g, hg, hpar, hheight, hdel, hdec⟩ := h.genesis
  let qc : QuorumCert H Sig := .create
    { c.config with nmajority := c.config.nreplicas - (replicas.filter (· ≠ listenAddr)).length / 3 }
    c.b0
  have hput := modify_eq_put (h := c.b0) (by rw [h.b0]; exact hg)
    fun b => { b with qc := qc, selfQc := some qc, qcRef := some c.b0 }
  have hat : (c.onInit ((replicas.filter (· ≠ listenAddr)).length / 3)).storage P.genesisHash =
      some { g with qc := qc, selfQc := some qc, qcRef := some P.genesisHash } := by
    change (c.modify c.b0 _).storage P.genesisHash = _
    rw [hput, ← h.b0, put_self]
  refine
    { id := h.id, b0 := h.b0, bLock := h.bLock, bExec := h.bExec, vheight := h.vheight
      tails := h.tails, nreplicas := h.nreplicas, voteDisabled := h.voteDisabled, rse := h.rse
      sc := h.sc, futures := h.futures, others := fun x hx => ?_
      genesis := ⟨_, hat, hpar, hheight, hdel, hdec⟩
      nmajority := congrArg (· - _) h.nreplicas
      hqc := ⟨h.b0, h.b0⟩
      certified := ⟨_, hat, rfl, rfl⟩ }
  change (c.modify c.b0 _).storage x = none
  rw [hput, put_of_ne c _ (by rwa [h.b0]), h.others x hx]

theorem Started.wellFormed {id : ReplicaID} {total nmaj : Nat} {c : Core H Sig}
    (h : c.Started P id total nmaj) : c.WellFormed P := by
  obtain ⟨g, hg, hpar, hheight, hdel, hdec⟩ := h.genesis
  obtain ⟨g', hg', hqc, hself⟩ := h.certified
  obtain rfl : g = g' := Option.some.inj (hg.symm.trans hg')
  have honly {x : H} {b : Block H Sig} (hb : c.storage x = some b) :
      x = P.genesisHash ∧ b = g := by
    by_cases hx : x = P.genesisHash
    · subst hx
      exact ⟨rfl, Option.some.inj (hb.symm.trans hg)⟩
    · rw [h.others x hx] at hb
      cases hb
  have hgd : c.delivered P.genesisHash = true := by rw [delivered_of hg, hdel]
  refine
    { dag := ⟨h.b0, ⟨g, hg, hpar, hqc, hheight, hdel⟩, fun hb hne => absurd (honly hb).1 hne,
        fun hb hd => ?_, fun hb hne => absurd (honly hb).1 hne⟩
      genesisDecided := by rw [decided_of hg, hdec]
      hqcDelivered := by rw [h.hqc.1, hgd]
      lockDelivered := by rw [h.bLock, hgd]
      execDelivered := by rw [h.bExec, hgd]
      decidedDelivered := fun {x} hx => ?_
      tailsDelivered := fun t ht => ?_
      hqcCert := by rw [h.hqc.1, h.hqc.2]
      selfQcHash := fun {x b qc} hb hq => ?_
      futuresReturn := fun x e => by simp [h.futures x] }
  · rw [(honly hb).2, hdel] at hd
    cases hd
  · cases hb : c.storage x with
    | none => simp [decided, hb] at hx
    | some b => rw [(honly hb).1, hgd]
  · rw [h.tails, List.mem_singleton] at ht
    rw [ht, hgd]
  · obtain ⟨rfl, rfl⟩ := honly hb
    rw [hself] at hq
    rw [← Option.some.inj hq, h.hqc.2]

end Core
end LibHotStuff
