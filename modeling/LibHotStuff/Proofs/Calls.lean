import LibHotStuff.Proofs.Update

namespace LibHotStuff

open Chain

variable {H Sig : Type} {P : Primitives H Sig}

namespace Core

variable {c c' : Core H Sig} {h : H}

/-- What the calls that only store, deliver or collect leave alone. -/
structure Quiet (c c' : Core H Sig) : Prop where
  id : c'.id = c.id
  hqc : c'.hqc = c.hqc
  bLock : c'.bLock = c.bLock
  bExec : c'.bExec = c.bExec
  vheight : c'.vheight = c.vheight
  config : c'.config = c.config
  voteDisabled : c'.voteDisabled = c.voteDisabled
  rse : c'.rse = c.rse
  futures : c'.futures = c.futures
  sc : c'.sc = c.sc
  decided : ∀ h, c'.decided h = c.decided h
  voters : ∀ h, c'.voters h = c.voters h
  delivered : ∀ h, c.delivered h = true → c'.delivered h = true

theorem Quiet.refl (c : Core H Sig) : c.Quiet c :=
  ⟨rfl, rfl, rfl, rfl, rfl, rfl, rfl, rfl, rfl, rfl, fun _ => rfl, fun _ => rfl, fun _ h => h⟩

/-- A call that touches nothing but the shards and the tails. -/
theorem WellFormed.with_shards (hc : c.WellFormed P) (sc : ShardsContainer H) :
    ({ c with sc := sc } : Core H Sig).WellFormed P :=
  have hs : c.SameDag { c with sc := sc } := .of_storage rfl rfl
  { hc with dag := hs.dag hc.dag }

/-- A call that writes votes into blocks that are there. -/
theorem WellFormed.of_sameDag (hc : c.WellFormed P) (hs : c.SameDag c')
    (hdec : ∀ h, c'.decided h = c.decided h) (hhqc : c'.hqc = c.hqc) (hlock : c'.bLock = c.bLock)
    (hexec : c'.bExec = c.bExec) (hfut : c'.futures = c.futures) (htails : c'.tails ⊆ c.tails)
    (hself : ∀ {h b qc}, c'.storage h = some b → b.selfQc = some qc → qc.objHash = h) :
    c'.WellFormed P where
  dag := hs.dag hc.dag
  genesisDecided := by rw [hdec, hc.genesisDecided]
  hqcDelivered := by rw [hs.delivered, hhqc, hc.hqcDelivered]
  lockDelivered := by rw [hs.delivered, hlock, hc.lockDelivered]
  execDelivered := by rw [hs.delivered, hexec, hc.execDelivered]
  decidedDelivered hx := by
    rw [hdec] at hx
    rw [hs.delivered, hc.decidedDelivered hx]
  tailsDelivered t ht := by rw [hs.delivered, hc.tailsDelivered t (htails ht)]
  hqcCert := by rw [hhqc, hc.hqcCert]
  selfQcHash := hself
  futuresReturn := by
    rw [hfut]
    exact hc.futuresReturn

section Put

variable [DecidableEq H]

/-- Stores a block. -/
def put (c : Core H Sig) (h : H) (b : Block H Sig) : Core H Sig :=
  { c with storage := Function.update c.storage h (some b) }

/-- A block as it may be stored under its hash: not delivered yet, or with the parent and the
certificate of its fields. -/
def Storable (c : Core H Sig) (h : H) (b : Block H Sig) : Prop :=
  b.decision = false ∧ b.voted = c.voters h ∧ (∀ qc, b.selfQc = some qc → qc.objHash = h) ∧
    (b.delivered = false ∧ b.qcRef = none ∧ b.height = 0 ∨
      b.delivered = true ∧ b.parents = b.parentHashes ∧ b.qcRef = some b.qc.objHash ∧
        ∃ p, b.parentHashes.head? = some p ∧ c.delivered p = true ∧ b.height = c.height p + 1)

variable {b : Block H Sig}

@[simp] theorem put_self (c : Core H Sig) (h : H) (b : Block H Sig) :
    (c.put h b).storage h = some b := Function.update_self _ _ _

theorem put_of_ne (c : Core H Sig) {h x : H} (b : Block H Sig) (hx : x ≠ h) :
    (c.put h b).storage x = c.storage x := Function.update_of_ne hx _ _

theorem put_delivered (hd : c.delivered h = false) {x : H} (hx : c.delivered x = true) :
    (c.put h b).delivered x = true ∧ (c.put h b).height x = c.height x := by
  have hne : x ≠ h := by
    rintro rfl
    rw [hd] at hx
    cases hx
  rw [Core.delivered, Core.height, put_of_ne c b hne]
  exact ⟨hx, rfl⟩

/-- Storing a block where none was delivered. -/
theorem Dag.put (hc : c.Dag P) (hd : c.delivered h = false) (hhash : P.hashBlock b.toBlockData = h)
    (hb : c.Storable h b) : (c.put h b).Dag P := by
  have hgen : P.genesisHash ≠ h := by
    rintro rfl
    rw [hc.delivered_genesis] at hd
    cases hd
  refine ⟨hc.b0, ?_, ?_, ?_, ?_⟩
  · rw [put_of_ne c b hgen]
    exact hc.genesis
  · intro x bx hx hne
    by_cases hxh : x = h
    · subst hxh
      rw [put_self] at hx
      rw [← Option.some.inj hx, hhash]
    · rw [put_of_ne c b hxh] at hx
      exact hc.hashed hx hne
  · intro x bx hx hxd
    by_cases hxh : x = h
    · subst hxh
      rw [put_self] at hx
      obtain rfl := Option.some.inj hx
      rcases hb.2.2.2 with ⟨_, hq, hh⟩ | ⟨hdel, _⟩
      · exact ⟨hq, hh⟩
      · rw [hxd] at hdel
        cases hdel
    · rw [put_of_ne c b hxh] at hx
      exact hc.undelivered hx hxd
  · intro x bx hx hne hxd
    by_cases hxh : x = h
    · subst hxh
      rw [put_self] at hx
      obtain rfl := Option.some.inj hx
      rcases hb.2.2.2 with ⟨hdel, _⟩ | ⟨_, hpar, hqc, p, hhead, hpd, hh⟩
      · rw [hxd] at hdel
        cases hdel
      · obtain ⟨hpd', hph'⟩ := put_delivered (b := b) hd hpd
        exact ⟨hpar, hqc, p, hhead, hpd', by rw [hph', hh]⟩
    · rw [put_of_ne c b hxh] at hx
      obtain ⟨hpar, hqc, p, hhead, hpd, hh⟩ := hc.linked hx hne hxd
      obtain ⟨hpd', hph'⟩ := put_delivered (b := b) hd hpd
      exact ⟨hpar, hqc, p, hhead, hpd', by rw [hph', hh]⟩

theorem put_decided (hc : c.WellFormed P) (hd : c.delivered h = false) (hb : c.Storable h b)
    (x : H) : (c.put h b).decided x = c.decided x := by
  by_cases hx : x = h
  · subst hx
    have hno : c.decided x = false := by
      cases hdec : c.decided x with
      | false => rfl
      | true =>
        rw [hc.decidedDelivered hdec] at hd
        cases hd
    rw [hno, Core.decided, put_self]
    exact hb.1
  · rw [Core.decided, Core.decided, put_of_ne c b hx]

theorem put_voters (hb : c.Storable h b) (x : H) : (c.put h b).voters x = c.voters x := by
  by_cases hx : x = h
  · subst hx
    rw [voters, put_self]
    exact hb.2.1
  · rw [voters, voters, put_of_ne c b hx]

theorem put_quiet (hc : c.WellFormed P) (hd : c.delivered h = false) (hb : c.Storable h b)
    (tails : List H) : c.Quiet { c.put h b with tails := tails } :=
  ⟨rfl, rfl, rfl, rfl, rfl, rfl, rfl, rfl, rfl, rfl, put_decided hc hd hb,
    put_voters hb, fun _ hx => (put_delivered hd hx).1⟩

theorem WellFormed.put (hc : c.WellFormed P) (hd : c.delivered h = false)
    (hhash : P.hashBlock b.toBlockData = h) (hb : c.Storable h b) {tails : List H}
    (htails : ∀ t ∈ tails, t ∈ c.tails ∨ t = h ∧ b.delivered = true) :
    ({ c.put h b with tails := tails } : Core H Sig).WellFormed P :=
  have hdec := put_decided hc hd hb
  have hmono {x : H} (hx : c.delivered x = true) := (put_delivered (b := b) hd hx).1
  have hsame : (c.put h b).SameDag { c.put h b with tails := tails } := .of_storage rfl rfl
  { dag := hsame.dag (hc.dag.put hd hhash hb)
    genesisDecided := (hdec _).trans hc.genesisDecided
    hqcDelivered := hmono hc.hqcDelivered
    lockDelivered := hmono hc.lockDelivered
    execDelivered := hmono hc.execDelivered
    decidedDelivered := fun hx => hmono (hc.decidedDelivered ((hdec _).symm.trans hx))
    tailsDelivered := by
      intro t ht
      rcases htails t ht with ht | ⟨rfl, hbd⟩
      · exact hmono (hc.tailsDelivered t ht)
      · exact (delivered_of (put_self c t b)).trans hbd
    hqcCert := hc.hqcCert
    selfQcHash := by
      intro x bx qc hx hqc
      change (c.put h b).storage x = some bx at hx
      by_cases hxh : x = h
      · subst hxh
        rw [put_self] at hx
        rw [← Option.some.inj hx] at hqc
        exact hb.2.2.1 qc hqc
      · rw [put_of_ne c b hxh] at hx
        exact hc.selfQcHash hx hqc
    futuresReturn := hc.futuresReturn }

theorem modify_eq_put (hb : c.storage h = some b) (f : Block H Sig → Block H Sig) :
    c.modify h f = c.put h (f b) := by
  rw [modify, put, hb]
  rfl

end Put

section Storage

variable [DecidableEq H]

/-- What a call does that brings at most block `x` into the graph. -/
structure Grows (P : Primitives H Sig) (c c' : Core H Sig) (x : H) : Prop where
  wellFormed : c'.WellFormed P
  quiet : c.Quiet c'
  stored : ∀ h, (c'.storage h).isSome → (c.storage h).isSome ∨ h = x
  delivered : ∀ h, c'.delivered h = true → c.delivered h = true ∨ h = x

omit [DecidableEq H] in
theorem Grows.refl (hc : c.WellFormed P) (x : H) : c.Grows P c x :=
  ⟨hc, .refl c, fun _ => Or.inl, fun _ => Or.inl⟩

theorem Grows.put {b : Block H Sig} (hc : c.WellFormed P) (hd : c.delivered h = false)
    (hhash : P.hashBlock b.toBlockData = h) (hb : c.Storable h b) {tails : List H}
    (htails : ∀ t ∈ tails, t ∈ c.tails ∨ t = h ∧ b.delivered = true) :
    c.Grows P { c.put h b with tails := tails } h where
  wellFormed := hc.put hd hhash hb htails
  quiet := put_quiet hc hd hb tails
  stored x hx := by
    by_cases hxh : x = h
    · exact Or.inr hxh
    · change ((c.put h b).storage x).isSome = true at hx
      rw [put_of_ne c b hxh] at hx
      exact Or.inl hx
  delivered x hx := by
    by_cases hxh : x = h
    · exact Or.inr hxh
    · change (c.put h b).delivered x = true at hx
      rw [Core.delivered, put_of_ne c b hxh] at hx
      exact Or.inl hx

/-- A fetched block enters the storage. -/
theorem addBlk_grows (hc : c.WellFormed P) (d : BlockData H Sig) :
    c.Grows P (c.addBlk P d.fetched) (P.hashBlock d) ∧
      ∀ h, (c.addBlk P d.fetched).delivered h = c.delivered h := by
  cases hst : c.storage (P.hashBlock d) with
  | some b =>
    have heq : c.addBlk P d.fetched = c := by simp [addBlk, BlockData.fetched, hst]
    rw [heq]
    exact ⟨.refl hc _, fun _ => rfl⟩
  | none =>
    have heq : c.addBlk P d.fetched = { c.put (P.hashBlock d) d.fetched with tails := c.tails } := by
      simp [addBlk, BlockData.fetched, hst, Core.put]
    have hd : c.delivered (P.hashBlock d) = false := by simp [Core.delivered, hst]
    rw [heq]
    refine ⟨.put hc hd rfl ⟨rfl, ?_, ?_, Or.inl ⟨rfl, rfl, rfl⟩⟩ fun t ht => Or.inl ht, fun h => ?_⟩
    · simp [BlockData.fetched, voters, hst]
    · simp [BlockData.fetched]
    · by_cases hh : h = P.hashBlock d
      · subst hh
        exact (delivered_of (put_self c _ _)).trans hd.symm
      · exact congrArg (fun o => (Option.map Block.delivered o).getD false) (put_of_ne c _ hh)

/-- A block as `on_deliver_blk` completes it. -/
def linked (b : Block H Sig) (height : Nat) : Block H Sig :=
  { b with
    parents := b.parentHashes, height := height, qcRef := some b.qc.objHash, delivered := true }

theorem deliverBlk_eq_put {b : Block H Sig} (hb : c.storage h = some b) (p₀ : H) :
    c.deliverBlk h b p₀ = { c.put h (linked b (c.height p₀ + 1)) with
      tails := (c.tails.filter (· ∉ b.parentHashes)).insert h } := by
  rw [deliverBlk, modify_eq_put hb]
  rfl

/-- `on_deliver_blk` delivers its block, unless a check fails. -/
theorem onDeliverBlk_grows (hc : c.WellFormed P) (blk : H) {r : Res H Sig}
    (hr : c.onDeliverBlk blk = r) (hexit : r.exit ≠ some (.throw .qcBlockNotFetched)) :
    c.Grows P r.core blk ∧ r.outs = [] ∧ r.tasks = [] ∧
      (r.exit = none → r.core.delivered blk = true) := by
  cases hst : c.storage blk with
  | none =>
    have heq : r = .fail c .undefined := by simp [← hr, onDeliverBlk, hst]
    subst heq
    exact ⟨.refl hc _, rfl, rfl, by simp [Res.fail]⟩
  | some b =>
    cases hbd : b.delivered with
    | true =>
      have heq : r = .ok c := by simp [← hr, onDeliverBlk, hst, hbd]
      subst heq
      exact ⟨.refl hc _, rfl, rfl, fun _ => by rw [Res.ok, delivered_of hst, hbd]⟩
    | false =>
      have hd : c.delivered blk = false := by rw [delivered_of hst, hbd]
      have hne : blk ≠ P.genesisHash := by
        rintro rfl
        rw [hc.dag.delivered_genesis] at hd
        cases hd
      have hhash := hc.dag.hashed hst hne
      have hund := hc.dag.undelivered hst hbd
      have hdec : b.decision = false := by
        cases hdec : b.decision with
        | false => rfl
        | true =>
          have := hc.decidedDelivered ((decided_of hst).trans hdec)
          rw [hd] at this
          cases this
      have hvot : b.voted = c.voters blk := by simp [voters, hst]
      have hself (qc : QuorumCert H Sig) (hqc : b.selfQc = some qc) := hc.selfQcHash hst hqc
      -- a check that fails leaves the block undelivered
      have hpart (g : Block H Sig → List H) :
          c.Grows P (c.modify blk fun b => { b with parents := g b }) blk := by
        rw [modify_eq_put hst]
        have hput := Grows.put (b := { b with parents := g b }) hc hd hhash
          ⟨hdec, hvot, hself, Or.inl ⟨hbd, hund⟩⟩ fun t ht => Or.inl ht
        exact hput
      simp only [onDeliverBlk, hst, hbd, Bool.false_eq_true, if_false] at hr
      split at hr
      · rename_i hall
        split at hr
        · subst hr
          exact ⟨hpart fun _ => [], rfl, rfl, by simp [Res.fail]⟩
        · rename_i p₀ hp₀
          split at hr
          · have hp₀d : c.delivered p₀ = true :=
              List.all_eq_true.mp hall p₀ (List.mem_of_mem_head? hp₀)
            subst hr
            rw [deliverBlk_eq_put hst]
            refine ⟨Grows.put (b := linked b (c.height p₀ + 1)) hc hd hhash ⟨hdec, hvot, hself,
              Or.inr ⟨rfl, rfl, rfl, p₀, hp₀, hp₀d, rfl⟩⟩ fun t ht => ?_, rfl, rfl,
              fun _ => delivered_of (put_self c blk _)⟩
            rcases List.mem_insert_iff.mp ht with rfl | ht
            · exact Or.inr ⟨rfl, rfl⟩
            · exact Or.inl (List.mem_filter.mp ht).1
          · subst hr
            exact absurd rfl hexit
      · subst hr
        exact ⟨hpart fun b => b.parentHashes.takeWhile c.delivered, rfl, rfl, by simp [Res.fail]⟩

section Propose

variable {cmds : List UInt256} {parents : List H} {p₀ : H} {extra : Bytes}

theorem storeProposed_eq :
    c.storeProposed P cmds parents p₀ extra =
      { c.put (P.hashBlock (c.proposedData P cmds parents extra))
          { (c.storage (P.hashBlock (c.proposedData P cmds parents extra))).getD
              (c.proposedBlock P cmds parents p₀ extra) with
            selfQc := some (.create c.config (P.hashBlock (c.proposedData P cmds parents extra))) } with
        tails := c.tails.filter (· ∉ parents) } := by
  cases hst : c.storage (P.hashBlock (c.proposedData P cmds parents extra)) with
  | none =>
    have hadd : ({ c with tails := c.tails.filter (· ∉ parents) } : Core H Sig).addBlk P
        (c.proposedBlock P cmds parents p₀ extra) =
          { c.put (P.hashBlock (c.proposedData P cmds parents extra))
              (c.proposedBlock P cmds parents p₀ extra) with
            tails := c.tails.filter (· ∉ parents) } := by
      dsimp only [addBlk, proposedBlock]
      rw [hst]
      rfl
    change (addBlk P _ (c.proposedBlock P cmds parents p₀ extra)).modify _ _ = _
    rw [hadd]
    simp [modify, put]
  | some b =>
    have hadd : ({ c with tails := c.tails.filter (· ∉ parents) } : Core H Sig).addBlk P
        (c.proposedBlock P cmds parents p₀ extra) =
          { c with tails := c.tails.filter (· ∉ parents) } := by
      dsimp only [addBlk, proposedBlock]
      rw [hst]
    change (addBlk P _ (c.proposedBlock P cmds parents p₀ extra)).modify _ _ = _
    rw [hadd]
    simp [modify, put, hst]

/-- Delivering a block whose certificate is for a stored block. -/
theorem onDeliverBlk_of_stored {b : Block H Sig} (hb : c.storage h = some b)
    (hbd : b.delivered = false) (hp₀ : b.parentHashes.head? = some p₀)
    (hqc : (c.storage b.qc.objHash).isSome = true) :
    b.parentHashes.all c.delivered = false ∧
        (c.onDeliverBlk h).exit = some (.throw .blockNotDelivered) ∨
      c.delivered p₀ = true ∧ c.onDeliverBlk h =
        .ok { c.put h (linked b (c.height p₀ + 1)) with
          tails := (c.tails.filter (· ∉ b.parentHashes)).insert h } := by
  simp only [onDeliverBlk, hb, hbd, hp₀, Bool.false_eq_true, if_false]
  cases hall : b.parentHashes.all c.delivered with
  | false => exact Or.inl ⟨rfl, rfl⟩
  | true =>
    refine Or.inr ⟨List.all_eq_true.mp hall p₀ (List.mem_of_mem_head? hp₀), ?_⟩
    rw [if_pos rfl, if_pos hqc, deliverBlk_eq_put hb]

/-- The first part of `on_propose` leaves a stored block and what else there was. -/
theorem storeProposed_storage (hc : c.WellFormed P) {c₁ : Core H Sig}
    (hc₁ : c.storeProposed P cmds parents p₀ extra = c₁)
    {bnew : H} (hbnew : P.hashBlock (c.proposedData P cmds parents extra) = bnew) :
    ∃ b tails, c₁ = { c.put bnew b with tails := tails } ∧ tails ⊆ c.tails ∧
      (∀ qc, b.selfQc = some qc → qc.objHash = bnew) ∧
      (c.delivered bnew = true ∧ (∃ b₀ qc, c.storage bnew = some b₀ ∧
        b = { b₀ with selfQc := qc }) ∨
      c.delivered bnew = false ∧ b.delivered = false ∧ b.decision = false ∧
        b.voted = c.voters bnew ∧ b.toBlockData = c.proposedData P cmds parents extra) := by
  rw [storeProposed_eq, hbnew] at hc₁
  refine ⟨_, _, hc₁.symm, fun t ht => (List.mem_filter.mp ht).1, ?_, ?_⟩
  · intro qc hqc
    exact congrArg QuorumCert.objHash (Option.some.inj hqc).symm
  cases hst : c.storage bnew with
  | none => exact Or.inr ⟨by simp [Core.delivered, hst], rfl, rfl, by simp [voters, hst, proposedBlock], rfl⟩
  | some b =>
    cases hbd : b.delivered with
    | true => exact Or.inl ⟨by rw [delivered_of hst, hbd], b, _, rfl, rfl⟩
    | false =>
      have hd : c.delivered bnew = false := by rw [delivered_of hst, hbd]
      have hne : bnew ≠ P.genesisHash := by
        rintro rfl
        rw [hc.dag.delivered_genesis] at hd
        cases hd
      have hdec : b.decision = false := by
        cases hdec : b.decision with
        | false => rfl
        | true =>
          rw [hc.decidedDelivered ((decided_of hst).trans hdec)] at hd
          cases hd
      refine Or.inr ⟨hd, hbd, hdec, by simp [voters, hst], P.hashBlock_injective ?_⟩
      exact (hc.dag.hashed hst hne).trans hbnew.symm

/-- `on_propose` delivers its block when the parents are delivered. -/
theorem storeProposed_delivers (hc : c.WellFormed P) (hp₀ : parents.head? = some p₀)
    {bnew : H} (hbnew : P.hashBlock (c.proposedData P cmds parents extra) = bnew) {r : Res H Sig}
    (hr : (c.storeProposed P cmds parents p₀ extra).onDeliverBlk bnew = r) :
    parents.all c.delivered = false ∧ r.exit = some (.throw .blockNotDelivered) ∨
      ∃ c', r = .ok c' ∧ c.Grows P c' bnew ∧ c'.delivered bnew = true := by
  obtain ⟨b, tails, hc₁, htails, hself, hcases⟩ := storeProposed_storage hc rfl hbnew
  generalize c.storeProposed P cmds parents p₀ extra = c₁ at hr hc₁
  have hst : c₁.storage bnew = some b := by
    rw [hc₁]
    exact put_self c bnew b
  have hother {x : H} (hx : x ≠ bnew) : c₁.storage x = c.storage x := by
    rw [hc₁]
    exact put_of_ne c b hx
  rcases hcases with ⟨hd, b₀, qc, hb₀, rfl⟩ | ⟨hd, hbd, hdec, hvot, hdata⟩
  · -- the same block has been proposed before
    have hdel₀ : b₀.delivered = true := by rw [← delivered_of hb₀, hd]
    have hsame : c.SameDag c₁ := by
      refine ⟨by rw [hc₁]; rfl, fun x => ?_⟩
      by_cases hx : x = bnew
      · rw [hx, hst, hb₀]
        rfl
      · rw [hother hx]
    have hdec (x : H) : c₁.decided x = c.decided x := by
      by_cases hx : x = bnew
      · rw [hx, decided_of hst, decided_of hb₀]
      · rw [decided, decided, hother hx]
    have hvot (x : H) : c₁.voters x = c.voters x := by
      by_cases hx : x = bnew
      · rw [hx, voters, voters, hst, hb₀]
        rfl
      · rw [voters, voters, hother hx]
    have hr' : r = .ok c₁ := by simp [← hr, onDeliverBlk, hst, hdel₀]
    refine Or.inr ⟨c₁, hr', ⟨?_, ?_, ?_, ?_⟩, ?_⟩
    · refine hc.of_sameDag hsame hdec ?_ ?_ ?_ ?_ ?_ ?_
      · rw [hc₁]; rfl
      · rw [hc₁]; rfl
      · rw [hc₁]; rfl
      · rw [hc₁]; rfl
      · rw [hc₁]; exact htails
      · intro x bx qcx hbx hqcx
        by_cases hx : x = bnew
        · subst hx
          rw [hst] at hbx
          rw [← Option.some.inj hbx] at hqcx
          exact hself qcx hqcx
        · rw [hother hx] at hbx
          exact hc.selfQcHash hbx hqcx
    · have hq : c.Quiet { c.put bnew { b₀ with selfQc := qc } with tails := tails } :=
        ⟨rfl, rfl, rfl, rfl, rfl, rfl, rfl, rfl, rfl, rfl, fun x => by rw [← hc₁, hdec],
          fun x => by rw [← hc₁, hvot], fun x hx => by rw [← hc₁, hsame.delivered, hx]⟩
      rwa [hc₁]
    · intro x hx
      by_cases hxb : x = bnew
      · exact Or.inr hxb
      · rw [hother hxb] at hx
        exact Or.inl hx
    · intro x hx
      rw [hsame.delivered] at hx
      exact Or.inl hx
    · rw [hsame.delivered, hd]
  · have hdel : c₁.delivered = c.delivered := by
      funext x
      by_cases hx : x = bnew
      · rw [hx, hd, delivered_of hst, hbd]
      · rw [Core.delivered, Core.delivered, hother hx]
    have hpar : b.parentHashes = parents := congrArg BlockData.parentHashes hdata
    have hqcHash : b.qc.objHash = c.hqc.1 := by
      rw [← hc.hqcCert]
      exact congrArg (fun d => QuorumCert.objHash (BlockData.qc d)) hdata
    have hqcStored : (c₁.storage b.qc.objHash).isSome = true := by
      obtain ⟨bq, hbq, _⟩ := stored_of_delivered
        (show c₁.delivered b.qc.objHash = true by rw [hdel, hqcHash, hc.hqcDelivered])
      rw [hbq]
      rfl
    have hp₀b : b.parentHashes.head? = some p₀ := by rw [hpar, hp₀]
    rcases onDeliverBlk_of_stored hst hbd hp₀b hqcStored with ⟨hall, hexit⟩ | ⟨hp₀d, hok⟩
    · rw [hdel, hpar] at hall
      exact Or.inl ⟨hall, by rw [← hr, hexit]⟩
    · rw [hdel] at hp₀d
      have hp₀ne : p₀ ≠ bnew := by
        rintro rfl
        rw [hd] at hp₀d
        cases hp₀d
      have hheight : c₁.height p₀ = c.height p₀ := by rw [Core.height, Core.height, hother hp₀ne]
      refine Or.inr ⟨_, by rw [← hr, hok], ?_, delivered_of (put_self c₁ bnew _)⟩
      have heq : ({ c₁.put bnew (linked b (c₁.height p₀ + 1)) with
          tails := (c₁.tails.filter (· ∉ b.parentHashes)).insert bnew } : Core H Sig) =
          { c.put bnew (linked b (c.height p₀ + 1)) with
            tails := (tails.filter (· ∉ b.parentHashes)).insert bnew } := by
        rw [hheight, hc₁]
        simp only [put, Function.update_idem]
      rw [heq]
      refine Grows.put (b := linked b (c.height p₀ + 1)) hc hd ?_ ⟨hdec, hvot, hself,
        Or.inr ⟨rfl, rfl, rfl, p₀, hp₀b, hp₀d, rfl⟩⟩ fun t ht => ?_
      · rw [← hbnew, ← hdata]
        rfl
      · rcases List.mem_insert_iff.mp ht with rfl | ht
        · exact Or.inr ⟨rfl, rfl⟩
        · exact Or.inl (htails (List.mem_filter.mp ht).1)

end Propose

end Storage

end Core
end LibHotStuff
