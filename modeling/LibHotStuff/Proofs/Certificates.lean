import LibHotStuff.Proofs.Votes

namespace LibHotStuff

open Chain

variable {H Sig : Type}

/-- `h` is genesis or has a quorum of votes. -/
def Parties.Backed (P : Primitives H Sig) (D : Deployment) (w : Parties H Sig) (h : H) : Prop :=
  h = P.genesisHash ∨ w.Quorum D h

theorem Parties.Backed.mono {P : Primitives H Sig} {D : Deployment} {w w' : Parties H Sig}
    (hle : ∀ r, (w r).Le (w' r)) {h : H} (hb : w.Backed P D h) : w'.Backed P D h :=
  hb.imp_right fun hq => hq.mono hle

variable [DecidableEq H] {P : Primitives H Sig} {D : Deployment} {R : Rules H Sig}
  {dummy : QuorumCert H Sig} {w w' : Parties H Sig}

namespace QuorumCert

omit [DecidableEq H] in
theorem checkSigs_all {config : ReplicaConfig} {h : H} {l : List (ReplicaID × Sig)}
    (hc : checkSigs P config h l = some true) :
    ∀ e ∈ l, e.1 < config.nreplicas ∧ P.verifySig e.1 h e.2 = true := by
  induction l with
  | nil => simp
  | cons e l ih =>
    obtain ⟨rid, s⟩ := e
    rw [checkSigs] at hc
    split at hc
    · cases hc
    · rename_i hlt
      split at hc
      · rename_i hver
        intro e he
        rcases List.mem_cons.mp he with rfl | he
        · exact ⟨Nat.lt_of_not_le hlt, hver⟩
        · exact ih hc e he
      · cases hc

omit [DecidableEq H] in
/-- The signers of a certificate that is verified and not forged are a quorum. -/
theorem verify_quorum {config : ReplicaConfig} (hn : config.nreplicas = D.n)
    (hmaj : config.nmajority = D.n - (D.n - 1) / 3) {qc : QuorumCert H Sig}
    (hv : qc.verify P config = some true) (hu : w.Unforged P D qc) : w.Quorum D qc.objHash := by
  unfold verify at hv
  split at hv
  · cases hv
  rename_i hcount
  have hall := checkSigs_all hv
  refine ⟨(qc.signers.map Prod.fst).dedup.toFinset, fun r hr => ?_, ?_, fun r hr hc => ?_⟩
  · obtain ⟨e, he, rfl⟩ := List.mem_map.mp (List.mem_dedup.mp (List.mem_toFinset.mp hr))
    rw [Finset.mem_range, ← hn]
    exact (hall e he).1
  · rw [List.toFinset_card_of_nodup (List.nodup_dedup _)]
    omega
  · obtain ⟨⟨rid, sig⟩, he, rfl⟩ := List.mem_map.mp (List.mem_dedup.mp (List.mem_toFinset.mp hr))
    exact hu rid sig he (hall _ he).2 hc

end QuorumCert

/-- Every block that a replica has delivered carries a certificate that the votes bear out, and so
do the blocks that it keeps apart. -/
structure Core.Justified (P : Primitives H Sig) (D : Deployment) (w : Parties H Sig)
    (c : Core H Sig) : Prop where
  fetched : ∀ h, (c.storage h).isSome → c.delivered h = false → ∀ d, P.hashBlock d = h →
    w.Unforged P D d.qc
  delivered : ∀ h, c.delivered h = true → w.Backed P D (P.justify h)
  hqc : w.Backed P D c.hqc.1
  lock : w.Backed P D c.bLock
  voters : ∀ h, h ≠ P.genesisHash → (c.voters h).Nodup ∧
    ∀ v ∈ c.voters h, v < D.n ∧ (D.Correct v → (w v).Voted h)

namespace Core

variable {c c' : Core H Sig} {outs : List (Output H Sig)}

omit [DecidableEq H] in
theorem SameDag.stored_iff (h : c.SameDag c') (x : H) :
    (c'.storage x).isSome = (c.storage x).isSome := by
  have := congrArg Option.isSome (h.2 x)
  simpa using this

namespace Justified

omit [DecidableEq H] in
theorem mono (hle : ∀ r, (w r).Le (w' r)) (h : c.Justified P D w) : c.Justified P D w' where
  fetched x hx hd d hh := (h.fetched x hx hd d hh).mono hle
  delivered x hx := (h.delivered x hx).mono hle
  hqc := h.hqc.mono hle
  lock := h.lock.mono hle
  voters x hx := ⟨(h.voters x hx).1, fun v hv =>
    ⟨((h.voters x hx).2 v hv).1, fun hc => (hle v).voted (((h.voters x hx).2 v hv).2 hc)⟩⟩

omit [DecidableEq H] in
/-- The blocks are the same. -/
theorem of_sameDag (h : c.Justified P D w) (hs : c.SameDag c') (hhqc : w.Backed P D c'.hqc.1)
    (hlock : w.Backed P D c'.bLock)
    (hvot : ∀ x, x ≠ P.genesisHash → (c'.voters x).Nodup ∧
      ∀ v ∈ c'.voters x, v < D.n ∧ (D.Correct v → (w v).Voted x)) : c'.Justified P D w where
  fetched x hx hd := by
    rw [hs.stored_iff] at hx
    rw [hs.delivered] at hd
    exact h.fetched x hx hd
  delivered x hx := by
    rw [hs.delivered] at hx
    exact h.delivered x hx
  hqc := hhqc
  lock := hlock
  voters := hvot

omit [DecidableEq H] in
/-- A block has come in. -/
theorem of_grows (h : c.Justified P D w) {x : H} (hg : c.Grows P c' x)
    (hf : c'.delivered x = false → ∀ d, P.hashBlock d = x → w.Unforged P D d.qc)
    (hd : c'.delivered x = true → w.Backed P D (P.justify x)) : c'.Justified P D w where
  fetched y hy hyd d hh := by
    rcases hg.stored y hy with hy | rfl
    · refine h.fetched y hy ?_ d hh
      by_contra hdel
      rw [hg.quiet.delivered y (by simpa using hdel)] at hyd
      cases hyd
    · exact hf hyd d hh
  delivered y hy := by
    rcases hg.delivered y hy with hy' | rfl
    · exact h.delivered y hy'
    · exact hd hy
  hqc := by
    rw [hg.quiet.hqc]
    exact h.hqc
  lock := by
    rw [hg.quiet.bLock]
    exact h.lock
  voters y hy := by
    rw [hg.quiet.voters]
    exact h.voters y hy

omit [DecidableEq H] in
theorem committed (h : c.Justified P D w) {queue done : List H} {r : Res H Sig}
    (hcom : c.Committed queue r done) : r.core.Justified P D w := by
  have hvot (x : H) : r.core.voters x = c.voters x := by
    have hv := congrArg (fun o => (o.map Prod.snd).getD []) (hcom.votes x)
    simpa [Core.voters, Option.map_map, Function.comp_def] using hv
  refine h.of_sameDag hcom.sameDag ?_ ?_ fun x hx => ?_
  · rw [hcom.same.hqc]
    exact h.hqc
  · rw [hcom.same.bLock]
    exact h.lock
  · rw [hvot]
    exact h.voters x hx

theorem move (h : c.Justified P D w) (hm : Move P R c outs c') : c'.Justified P D w := by
  cases hm with
  | pre hm =>
    cases hm with
    | shards _ => exact h.of_sameDag (.of_storage rfl rfl) h.hqc h.lock h.voters
    | slice _ _ => exact h
    | prepare hd hp =>
      refine h.of_sameDag hp.sameDag ?_ ?_ ?_
      · rcases hp.hqc with ⟨heq, _⟩ | ⟨_, _, heq, _⟩
        · rw [heq]
          exact h.hqc
        · rw [heq]
          exact h.delivered _ hd
      · rcases hp.bLock with heq | ⟨hd', _, heq⟩
        · rw [heq]
          exact h.lock
        · rw [heq]
          exact h.delivered _ hd'
      · have hvot (x : H) : c'.voters x = c.voters x := by
          rw [Core.voters, Core.voters, hp.storage]
        intro x hx
        rw [hvot]
        exact h.voters x hx
    | propose hg hd hj _ =>
      refine h.of_grows hg (fun hf => ?_) fun _ => ?_
      · rw [hd] at hf
        cases hf
      · rcases hj with hj | hj
        · rw [hj]
          exact h.hqc
        · exact h.delivered _ hj
  | @commit _ b r _ hto _ _ =>
    have hcom := h.committed hto.committed
    exact hcom.of_sameDag (.of_storage rfl rfl) hcom.hqc hcom.lock hcom.voters

/-- A block is delivered with a certificate that has been verified. -/
theorem deliver (h : c.Justified P D w) (hc : c.WellFormed P) (hn : c.config.nreplicas = D.n)
    (hmaj : c.config.nmajority = D.n - (D.n - 1) / 3) {blk : H}
    (hd : Replica.deliverable P c blk = true) : (c.onDeliverBlk blk).core.Justified P D w := by
  have hg := (deliver_grows hc hd).1
  unfold Replica.deliverable at hd
  cases hb : c.storage blk with
  | none => simp [hb] at hd
  | some b =>
    simp only [hb, Bool.and_eq_true, Bool.or_eq_true, decide_eq_true_eq, beq_iff_eq] at hd
    cases hdel : c.delivered blk with
    | true =>
      refine h.of_grows hg (fun hf => ?_) fun _ => h.delivered _ hdel
      rw [hg.quiet.delivered _ hdel] at hf
      cases hf
    | false =>
      have hne : blk ≠ P.genesisHash := by
        rintro rfl
        rw [hc.dag.delivered_genesis] at hdel
        cases hdel
      have hhash := hc.dag.hashed hb hne
      have hunf := h.fetched blk (by rw [hb]; rfl) hdel
      have hjust : P.justify blk = b.qc.objHash := by simp [Primitives.justify, P.content_eq hhash hne]
      refine h.of_grows hg (fun _ d hh => hunf d hh) fun _ => ?_
      rw [hjust]
      rcases hd.1.1 with hgen | hver
      · exact Or.inl (hgen.trans hc.dag.b0)
      · exact Or.inr (QuorumCert.verify_quorum hn hmaj hver (hunf _ hhash))

/-- A counted vote. -/
theorem count (h : c.Justified P D w) {v : Vote H Sig} (hlt : v.voter < D.n)
    (hvoted : D.Correct v.voter → (w v.voter).Voted v.blkHash) (hk : c.Counts P v c') :
    c'.Justified P D w := by
  have hhqc := congrArg Core.hqc hk.rest
  have hlock := congrArg Core.bLock hk.rest
  refine h.of_sameDag hk.sameDag ?_ ?_ fun x hx => ?_
  · rw [show c'.hqc = c.hqc from hhqc]
    exact h.hqc
  · rw [show c'.bLock = c.bLock from hlock]
    exact h.lock
  · rw [hk.voters]
    split
    · rename_i hxv
      subst hxv
      obtain ⟨hnodup, hall⟩ := h.voters _ hx
      refine ⟨List.nodup_cons.mpr ⟨hk.fresh, hnodup⟩, fun r hr => ?_⟩
      rcases List.mem_cons.mp hr with rfl | hr
      · exact ⟨hlt, hvoted⟩
      · exact hall r hr
    · exact h.voters x hx

omit [DecidableEq H] in
/-- Enough counted votes are a quorum. -/
theorem raise (h : c.Justified P D w) (hc : c.WellFormed P)
    (hmaj : c.config.nmajority = D.n - (D.n - 1) / 3) {blk : H} {qc : QuorumCert H Sig}
    (hlen : (c.voters blk).length = c.config.nmajority)
    (hlt : c.height c.hqc.1 < c.height blk) :
    ({ c with hqc := (blk, qc) } : Core H Sig).Justified P D w := by
  have hne : blk ≠ P.genesisHash := by
    rintro rfl
    rw [hc.dag.height_genesis] at hlt
    omega
  obtain ⟨hnodup, hall⟩ := h.voters blk hne
  refine h.of_sameDag (.of_storage rfl rfl) (Or.inr ⟨(c.voters blk).toFinset, fun r hr => ?_, ?_,
    fun r hr => (hall r (List.mem_toFinset.mp hr)).2⟩) h.lock h.voters
  · exact Finset.mem_range.mpr (hall r (List.mem_toFinset.mp hr)).1
  · rw [List.toFinset_card_of_nodup hnodup]
    omega

theorem addBlk (h : c.Justified P D w) (hc : c.WellFormed P) {data : BlockData H Sig}
    (hu : w.Unforged P D data.qc) : (c.addBlk P data.fetched).Justified P D w := by
  obtain ⟨hg, hdel⟩ := addBlk_grows hc data
  refine h.of_grows hg (fun _ d hh => ?_) fun hd => h.delivered _ ?_
  · rwa [P.hashBlock_injective hh]
  · rwa [← hdel]

end Justified

end Core

namespace Parties

theorem init_justified (r : ReplicaID) : (init P D dummy r).core.Justified P D w := by
  have h := Core.start_started P r dummy D.replicas (D.listenAddr r)
  have hwf := h.wellFormed
  have honly (x : H) (hx : x ≠ P.genesisHash) :
      ((Core.new P r dummy).start D.replicas (D.listenAddr r)).storage x = none := h.others x hx
  refine ⟨fun x hx hd => ?_, fun x hx => ?_, Or.inl h.hqc.1, Or.inl h.bLock, fun x hx => ?_⟩
  · by_cases hg : x = P.genesisHash
    · rw [hg, show (init P D dummy r).core.delivered _ = true from hwf.dag.delivered_genesis] at hd
      cases hd
    · rw [show (init P D dummy r).core.storage x = none from honly x hg] at hx
      cases hx
  · by_cases hg : x = P.genesisHash
    · rw [hg]
      exact Or.inl P.justify_genesis
    · rw [Core.delivered, show (init P D dummy r).core.storage x = none from honly x hg] at hx
      cases hx
  · rw [Core.voters, show (init P D dummy r).core.storage x = none from honly x hx]
    simp

theorem Reached.justified (h : Reached P D R dummy w) {r : ReplicaID} (hr : D.Correct r) :
    (w r).core.Justified P D w := by
  refine h.invariant (J := fun w _ p => p.core.Justified P D w) (fun r _ => init_justified r)
    (fun _ _ _ _ hle hp => hp.mono hle) (fun w r p hreach hp hr _ ha hle => ?_) r hr
  have hv := hreach.valid hr
  have hc := hv.wellFormed
  have hj := hp r hr
  refine Core.Justified.mono hle ?_
  cases ha with
  | move hm => exact hj.move hm
  | cut hto _ _ => exact hj.committed hto.committed
  | breach _ _ _ => exact hj
  | vote _ _ _ => exact hj.of_sameDag (.of_storage rfl rfl) hj.hqc hj.lock hj.voters
  | store _ hu => exact hj.addBlk hc hu
  | deliver hd => exact hj.deliver hc hv.nreplicas hv.nmajority hd
  | count hlt hvoted hk => exact hj.count hlt hvoted hk
  | raise _ hlen hlt _ => exact hj.raise hc hv.nmajority hlen hlt

end Parties
end LibHotStuff
