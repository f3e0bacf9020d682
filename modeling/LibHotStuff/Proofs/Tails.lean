import LibHotStuff.Library.Leaves
import LibHotStuff.Library.Transition
import LibHotStuff.Proofs.BlockFrame
import LibHotStuff.Proofs.Concrete
import LibHotStuff.Proofs.Start

/-! The tails are the leaves of the delivered blocks, whatever calls of a core succeed or throw. -/

namespace LibHotStuff

variable {H Sig : Type} [DecidableEq H] {P : Primitives H Sig}

namespace Core

/-- A call by code that catches exceptions. -/
def caught (P : Primitives H Sig) (c : Core H Sig) (i : Call H Sig) : Option (Core H Sig) :=
  let r := c.call P i
  match r.exit with
  | none => some r.core
  | some (.throw _) => some r.core
  | some _ => none

/-- The parents that `on_propose` is given are delivered. -/
def parentsDelivered (c : Core H Sig) : Call H Sig → Bool
  | .onPropose _ parents _ => parents.all c.delivered
  | _ => true

variable {c c' : Core H Sig} {x : H} {b b' : Block H Sig}

section Frame

theorem commitBlk_tails (c : Core H Sig) (x : H) : (c.commitBlk x).core.tails = c.tails := by
  unfold commitBlk
  dsimp only
  split
  · rfl
  · rfl
  · rfl

theorem commitAll_tails (c : Core H Sig) (xs : List H) : (c.commitAll xs).core.tails = c.tails := by
  induction xs generalizing c with
  | nil => rfl
  | cons x xs ih =>
    refine Res.bind_core (R := fun c c' => c'.tails = c.tails) ?_ (commitBlk_tails c x) ih
    exact fun _ _ _ h h' => h'.trans h

theorem commit_tails (c : Core H Sig) (x : H) : (c.commit x).core.tails = c.tails := by
  unfold commit
  split
  · rfl
  · rename_i queue _ _
    split
    · rfl
    · refine Res.bind_core (R := fun c c' => c'.tails = c.tails) ?_
        (commitAll_tails c queue.reverse) fun _ => rfl
      exact fun _ _ _ h h' => h'.trans h

omit [DecidableEq H] in
theorem lock_tails (c : Core H Sig) (x : H) : (c.lock x).tails = c.tails := by
  unfold lock
  split
  · rfl
  · rfl

theorem updateLock_tails (c : Core H Sig) (x : H) : (c.updateLock P x).core.tails = c.tails := by
  unfold updateLock
  split
  · rfl
  rename_i b₁ _
  split
  · rfl
  refine Res.bind_core (R := fun c c' => c'.tails = c.tails) (fun _ _ _ h h' => h'.trans h) ?_ ?_
  · obtain ⟨_, heq⟩ := startDecode_frame (P := P) c b₁
    rw [heq]
  intro c
  have hlock := lock_tails c b₁
  dsimp only
  generalize c.lock b₁ = c₁ at *
  split
  · exact hlock
  split
  · exact hlock
  split
  · exact hlock
  split
  · exact hlock
  split
  · exact hlock
  split
  · exact hlock
  · exact (commit_tails c₁ _).trans hlock

omit [DecidableEq H] in
theorem updateHqc_tails (c : Core H Sig) (x : H) (qc : QuorumCert H Sig) :
    (c.updateHqc x qc).core.tails = c.tails := by
  unfold updateHqc
  split
  · rfl
  · rfl

theorem update_tails (c : Core H Sig) (x : H) : (c.update P x).core.tails = c.tails := by
  unfold update
  split
  · rfl
  split
  · rfl
  rename_i b₂ _
  split
  · rfl
  refine Res.bind_core (R := fun c c' => c'.tails = c.tails) ?_ (updateHqc_tails c b₂ _)
    fun c => updateLock_tails c b₂
  exact fun _ _ _ h h' => h'.trans h

theorem onReceiveSlice_tails (c : Core H Sig) (s : Slice H) :
    (c.onReceiveSlice P s).core.tails = c.tails := by
  unfold onReceiveSlice
  split
  · split
    · rfl
    · rfl
  · rfl

theorem castVote_tails (c : Core H Sig) (prop : Proposal H) :
    (c.castVote P prop).core.tails = c.tails := by
  unfold castVote
  split
  · rfl
  · dsimp only
    split
    · rfl
    · rfl

theorem onReceiveProposal_tails (c : Core H Sig) (prop : Proposal H) :
    (c.onReceiveProposal P prop).core.tails = c.tails := by
  have trans (a b c : Core H Sig) (h : b.tails = a.tails) (h' : c.tails = b.tails) :
      c.tails = a.tails := h'.trans h
  unfold onReceiveProposal
  split
  · refine Res.bind_core (R := fun c c' => c'.tails = c.tails) trans
      (onReceiveSlice_tails c prop.slice) fun c => ?_
    refine Res.bind_core (R := fun c c' => c'.tails = c.tails) trans rfl fun c => ?_
    refine Res.bind_core (R := fun c c' => c'.tails = c.tails) trans ?_
      fun c => castVote_tails c prop
    split
    · rfl
    split
    · exact update_tails c prop.blk
    · rfl
  · rfl

theorem sendProposal_tails (c : Core H Sig) (cmds : List UInt256) (bnew : H) :
    (c.sendProposal P cmds bnew).core.tails = c.tails := by
  unfold sendProposal
  split
  · rfl
  split
  · rfl
  split
  · rfl
  dsimp only
  split
  · rfl
  split
  · rfl
  · rename_i prop _
    refine Res.bind_core (R := fun c c' => c'.tails = c.tails) ?_ (onReceiveProposal_tails c prop)
      fun _ => rfl
    exact fun _ _ _ h h' => h'.trans h

end Frame

/-- The parents of a delivered block. -/
def lineage (c : Core H Sig) (x : H) : Option (List H) :=
  (c.storage x).bind fun b => if b.delivered then some b.parentHashes else none

omit [DecidableEq H] in
theorem lineage_eq_some {ps : List H} : c.lineage x = some ps ↔
    ∃ b, c.storage x = some b ∧ b.delivered = true ∧ b.parentHashes = ps := by
  rw [lineage, Option.bind_eq_some_iff]
  simp only [Option.ite_none_right_eq_some, Option.some.injEq]

omit [DecidableEq H] in
theorem lineage_isSome : (c.lineage x).isSome = c.delivered x := by
  rw [lineage, delivered]
  cases c.storage x with
  | none => rfl
  | some b =>
    rw [Option.bind_some, Option.map_some, Option.getD_some]
    cases b.delivered <;> rfl

omit [DecidableEq H] in
theorem lineage_congr (h : c'.storage x = c.storage x) : c'.lineage x = c.lineage x := by
  rw [lineage, lineage, h]

/-- What the tails rely on. Unlike between two handlers, a delivery may have failed. -/
structure Tailed (P : Primitives H Sig) (c : Core H Sig) : Prop where
  leaves : Leaves c.lineage c.tails
  hashed : ∀ {x b}, c.storage x = some b → x ≠ P.genesisHash → P.hashBlock b.toBlockData = x
  genesis : c.delivered P.genesisHash = true
  certified : ∀ {x b}, c.storage x = some b → b.delivered = true → (c.storage b.qc.objHash).isSome
  hqc : (c.storage c.hqc.2.objHash).isSome
  selfQc : ∀ {x b qc}, c.storage x = some b → b.selfQc = some qc → qc.objHash = x

namespace Tailed

omit [DecidableEq H] in
/-- Nothing happens to the blocks but commits, and nothing to the tails. -/
theorem of_sameBlocks (h : c.Tailed P) (hs : c.SameBlocks c') (htails : c'.tails = c.tails) :
    c'.Tailed P := by
  have hlineage : c'.lineage = c.lineage := by
    funext y
    cases hy : c'.storage y with
    | none =>
      have hnone := hs.blocks y
      rw [hy, Option.map_none] at hnone
      rw [lineage, lineage, hy, Option.map_eq_none_iff.mp hnone.symm]
    | some b' =>
      obtain ⟨b, d, hb, rfl⟩ := hs.stored hy
      rw [lineage, lineage, hy, hb]
      rfl
  have hstored (y : H) : (c'.storage y).isSome = (c.storage y).isSome := by
    have heq := congrArg Option.isSome (hs.blocks y)
    rwa [Option.isSome_map, Option.isSome_map] at heq
  refine ⟨by rw [hlineage, htails]; exact h.leaves, fun hb hne => ?_, ?_, fun hb hd => ?_, ?_,
    fun hb hq => ?_⟩
  · obtain ⟨b, d, hb₀, rfl⟩ := hs.stored hb
    have hhash := h.hashed hb₀ hne
    exact hhash
  · rw [hs.sameDag.delivered, h.genesis]
  · obtain ⟨b, d, hb₀, rfl⟩ := hs.stored hb
    have hcert := h.certified hb₀ hd
    rwa [hstored]
  · rw [hstored]
    obtain heq | ⟨y, b, hb, hd, heq⟩ := hs.hqc
    · rw [heq, h.hqc]
    · rw [heq]
      exact h.certified hb hd
  · obtain ⟨b, d, hb₀, rfl⟩ := hs.stored hb
    exact h.selfQc hb₀ hq

/-- What is stored stays stored when one block is written. -/
theorem put_stored {y : H} (hy : (c.storage y).isSome) : ((c.put x b).storage y).isSome := by
  by_cases hxy : y = x
  · rw [hxy, put_self]
    rfl
  · rwa [put_of_ne c b hxy]

/-- One block is written: its content is the one of its hash, and with it the tails may change. -/
theorem put (h : c.Tailed P) (tails : List H)
    (hleaves : Leaves (c.put x b).lineage tails)
    (hhash : x ≠ P.genesisHash → P.hashBlock b.toBlockData = x)
    (hkept : c.delivered x = true → b.delivered = true)
    (hcert : b.delivered = true → (c.storage b.qc.objHash).isSome)
    (hself : ∀ qc, b.selfQc = some qc → qc.objHash = x) :
    ({ c.put x b with tails := tails } : Core H Sig).Tailed P := by
  have hold {y : H} {b' : Block H Sig} (hb' : (c.put x b).storage y = some b') :
      y = x ∧ b' = b ∨ c.storage y = some b' := by
    by_cases hxy : y = x
    · subst hxy
      rw [put_self] at hb'
      exact Or.inl ⟨rfl, (Option.some.inj hb').symm⟩
    · rw [put_of_ne c b hxy] at hb'
      exact Or.inr hb'
  refine ⟨hleaves, fun hb hne => ?_, ?_, fun hb hd => put_stored ?_, put_stored h.hqc, fun hb hq => ?_⟩
  · obtain ⟨rfl, rfl⟩ | hb := hold hb
    · exact hhash hne
    · exact h.hashed hb hne
  · change (c.put x b).delivered P.genesisHash = true
    by_cases hxg : P.genesisHash = x
    · rw [hxg, delivered_of (put_self c x b)]
      exact hkept (hxg ▸ h.genesis)
    · rw [delivered, put_of_ne c b hxg]
      exact h.genesis
  · obtain ⟨rfl, rfl⟩ | hb := hold hb
    · exact hcert hd
    · exact h.certified hb hd
  · obtain ⟨rfl, rfl⟩ | hb := hold hb
    · exact hself _ hq
    · exact h.selfQc hb hq

/-- A block that is written without being delivered. -/
theorem rewrite (h : c.Tailed P) (b' : Block H Sig) (hdata : b.toBlockData = b'.toBlockData)
    (hdel : b.delivered = b'.delivered)
    (hb' : c.storage x = some b' ∨ c.storage x = none ∧ b'.delivered = false ∧
      P.hashBlock b'.toBlockData = x)
    (hself : ∀ qc, b.selfQc = some qc → qc.objHash = x) : (c.put x b).Tailed P := by
  have hlineage : (c.put x b).lineage = c.lineage := by
    funext y
    by_cases hxy : y = x
    · have hpar : b.parentHashes = b'.parentHashes := congrArg BlockData.parentHashes hdata
      rw [hxy, lineage, lineage, put_self, Option.bind_some, hdel, hpar]
      obtain hb' | ⟨hnone, hund, _⟩ := hb'
      · rw [hb', Option.bind_some]
      · rw [hnone, hund]
        rfl
    · exact lineage_congr (put_of_ne c b hxy)
  have hqc : b.qc = b'.qc := congrArg BlockData.qc hdata
  refine h.put c.tails (by rw [hlineage]; exact h.leaves) (fun hne => ?_) (fun hd => ?_)
    (fun hd => ?_) hself
  · rw [hdata]
    obtain hb' | ⟨_, _, hhash⟩ := hb'
    · exact h.hashed hb' hne
    · exact hhash
  · rw [hdel]
    obtain hb' | ⟨hnone, _⟩ := hb'
    · rwa [delivered_of hb'] at hd
    · rw [delivered, hnone] at hd
      cases hd
  · rw [hdel] at hd
    rw [hqc]
    obtain hb' | ⟨_, hund, _⟩ := hb'
    · exact h.certified hb' hd
    · rw [hund] at hd
      cases hd

theorem addBlk (h : c.Tailed P) (d : BlockData H Sig) : (c.addBlk P d.fetched).Tailed P := by
  unfold Core.addBlk
  split
  · exact h
  · rename_i hnone
    exact h.rewrite d.fetched rfl rfl (Or.inr ⟨hnone, rfl, rfl⟩) fun _ hq => nomatch hq

/-- A block is delivered: it takes the place of its parents. -/
theorem deliver (h : c.Tailed P) (hb : c.storage x = some b) (hbd : b.delivered = false)
    (hpar : b.parentHashes.all c.delivered = true) (hqc : (c.storage b.qc.objHash).isSome) (p₀ : H) :
    (c.deliverBlk x b p₀).Tailed P := by
  have hd : c.delivered x = false := by rw [delivered_of hb, hbd]
  have hgen : x ≠ P.genesisHash := by
    rintro rfl
    rw [h.genesis] at hd
    cases hd
  have hhash := h.hashed hb hgen
  have hself (qc : QuorumCert H Sig) (hq : b.selfQc = some qc) := h.selfQc hb hq
  rw [deliverBlk_eq_put hb]
  refine h.put _ ?_ (fun _ => hhash) (fun _ => rfl) (fun _ => hqc) hself
  refine h.leaves.insert ?_ (fun p hp => ?_) ?_ fun y hy => lineage_congr (put_of_ne c _ hy)
  · rw [lineage, hb, Option.bind_some, hbd]
    rfl
  · rw [lineage_isSome]
    exact List.all_eq_true.mp hpar p hp
  · rw [lineage, put_self]
    rfl

theorem onDeliverBlk (h : c.Tailed P) (x : H) : (c.onDeliverBlk x).core.Tailed P := by
  unfold Core.onDeliverBlk
  split
  · exact h
  rename_i b hb
  have hself (qc : QuorumCert H Sig) (hq : b.selfQc = some qc) := h.selfQc hb hq
  have hpart (f : Block H Sig → Block H Sig) (hdata : (f b).toBlockData = b.toBlockData)
      (hdel : (f b).delivered = b.delivered) (hqc : (f b).selfQc = b.selfQc) :
      (c.modify x f).Tailed P := by
    rw [modify_eq_put hb]
    refine h.rewrite b hdata hdel (Or.inl hb) ?_
    rwa [hqc]
  split
  · exact h
  rename_i hbd
  split
  · rename_i hpar
    split
    · exact hpart _ rfl rfl rfl
    · rename_i p₀ _
      split
      · rename_i hqc
        exact h.deliver hb (Bool.eq_false_of_not_eq_true hbd) hpar hqc p₀
      · exact hpart _ rfl rfl rfl
  · exact hpart _ rfl rfl rfl

/-- A block whose vote has been counted, or refused after it was written down. -/
theorem counts (h : c.Tailed P) (hb : c.storage x = some b) (rid : ReplicaID)
    {qc : QuorumCert H Sig} (hqc : qc.objHash = x) :
    (c.modify x fun b => { b with voted := rid :: b.voted, selfQc := some qc }).Tailed P := by
  rw [modify_eq_put hb]
  refine h.rewrite b rfl rfl (Or.inl hb) fun qc' hq => ?_
  rw [← Option.some.inj hq, hqc]

omit [DecidableEq H] in
theorem updateHqc (h : c.Tailed P) (hqc : H) {qc : QuorumCert H Sig}
    (hst : (c.storage qc.objHash).isSome) : (c.updateHqc hqc qc).core.Tailed P := by
  unfold Core.updateHqc
  split
  · exact ⟨h.leaves, h.hashed, h.genesis, h.certified, hst, h.selfQc⟩
  · exact h

theorem onReceiveVote (h : c.Tailed P) (vote : Vote H Sig) : (c.onReceiveVote vote).core.Tailed P := by
  unfold Core.onReceiveVote
  split
  · exact h
  rename_i b hb
  split
  · exact h
  split
  · exact h
  split
  · exact h
  have hqc : (b.selfQc.getD (.create c.config vote.blkHash)).objHash = vote.blkHash := by
    cases hself : b.selfQc with
    | none => rfl
    | some qc => exact h.selfQc hb hself
  dsimp only
  split
  · exact h.counts hb vote.voter hqc
  · rename_i qc hadd
    have hqc' : qc.objHash = vote.blkHash := (QuorumCert_addPart_hash hadd).trans hqc
    have hcounted := h.counts hb vote.voter hqc'
    split
    · have hst : ((c.modify vote.blkHash fun b => { b with
          voted := vote.voter :: b.voted, selfQc := some qc }).storage qc.objHash).isSome := by
        rw [hqc', modify_eq_put hb, put_self]
        rfl
      refine Res.bind_core (R := fun c c' => c.Tailed P → c'.Tailed P) (fun _ _ _ h h' hc => h' (h hc))
        (fun hc => hc.updateHqc vote.blkHash hst) (fun _ hc => hc) hcounted
    · exact hcounted

/-- The parents of a delivered block are no tails already. -/
theorem drop_parents (h : c.Tailed P) (hb : c.storage x = some b) (hbd : b.delivered = true) :
    ({ c with tails := c.tails.filter (· ∉ b.parentHashes) } : Core H Sig) = c := by
  have hlin : c.lineage x = some b.parentHashes := lineage_eq_some.mpr ⟨b, hb, hbd, rfl⟩
  rw [h.leaves.filter_eq hlin]

/-- A delivery of which the parents are no tails any more. -/
theorem drop_deliver (c : Core H Sig) (x : H) (b : Block H Sig) (p₀ : H) :
    ({ c with tails := c.tails.filter (· ∉ b.parentHashes) } : Core H Sig).deliverBlk x b p₀ =
      c.deliverBlk x b p₀ := by
  have hfilter : (c.tails.filter (· ∉ b.parentHashes)).filter (· ∉ b.parentHashes) =
      c.tails.filter (· ∉ b.parentHashes) := by
    rw [List.filter_filter]
    simp only [Bool.and_self]
  unfold Core.deliverBlk Core.modify Core.height
  dsimp only
  rw [hfilter]

/-- The first part of `on_propose`: the parents are delivered, and so the new block is. -/
theorem storeProposed (h : c.Tailed P) (hgen : ∀ d : BlockData H Sig, d.parentHashes ≠ [] →
      P.hashBlock d ≠ P.genesisHash) (cmds : List UInt256) {parents : List H} {p₀ : H}
    (hp₀ : parents.head? = some p₀) (hpar : parents.all c.delivered = true) (extra : Bytes)
    {bnew : H} (hbnew : P.hashBlock (c.proposedData P cmds parents extra) = bnew) :
    ((c.storeProposed P cmds parents p₀ extra).onDeliverBlk bnew).core.Tailed P ∧
      ((c.storeProposed P cmds parents p₀ extra).onDeliverBlk bnew).core.delivered bnew = true := by
  have hne : bnew ≠ P.genesisHash := by
    rw [← hbnew]
    apply hgen
    rintro rfl
    cases hp₀
  obtain ⟨b, hstored, hdata, hstore⟩ : ∃ b : Block H Sig,
      (c.storage bnew = some b ∨ c.storage bnew = none ∧ b.delivered = false ∧
        P.hashBlock b.toBlockData = bnew) ∧
      b.toBlockData = c.proposedData P cmds parents extra ∧
        c.storeProposed P cmds parents p₀ extra =
          { c.put bnew { b with selfQc := some (.create c.config bnew) } with
            tails := c.tails.filter (· ∉ parents) } := by
    rw [storeProposed_eq, hbnew]
    cases hst : c.storage bnew with
    | none => exact ⟨c.proposedBlock P cmds parents p₀ extra, Or.inr ⟨rfl, rfl, hbnew⟩, rfl, rfl⟩
    | some b =>
      refine ⟨b, Or.inl rfl, P.hashBlock_injective ?_, rfl⟩
      rw [h.hashed hst hne, hbnew]
  have hparents : b.parentHashes = parents := congrArg BlockData.parentHashes hdata
  have hqc : b.qc = c.hqc.2 := congrArg BlockData.qc hdata
  have hput : (c.put bnew { b with selfQc := some (.create c.config bnew) }).Tailed P := by
    refine h.rewrite b rfl rfl hstored fun qc hq => ?_
    rw [← Option.some.inj hq]
    rfl
  have hat := put_self c bnew { b with selfQc := some (.create c.config bnew) }
  rw [hstore, ← hparents]
  generalize hc₀ : c.put bnew { b with selfQc := some (.create c.config bnew) } = c₀ at hput hat
  have htails : c.tails = c₀.tails := by
    rw [← hc₀]
    rfl
  rw [htails]
  cases hbd : b.delivered with
  | true =>
    have hdrop := hput.drop_parents hat hbd
    have hagain : (c₀.onDeliverBlk bnew) = .ok c₀ := by
      simp only [Core.onDeliverBlk, hat, hbd, if_true]
    rw [hdrop, hagain]
    exact ⟨hput, (delivered_of hat).trans hbd⟩
  | false =>
    have hall : b.parentHashes.all c₀.delivered = true := by
      rw [hparents, List.all_eq_true]
      intro p hp
      have hpd := List.all_eq_true.mp hpar p hp
      have hpne : p ≠ bnew := by
        rintro rfl
        obtain hb | ⟨hnone, _⟩ := hstored
        · rw [delivered_of hb, hbd] at hpd
          cases hpd
        · rw [delivered, hnone] at hpd
          cases hpd
      rw [← hc₀, delivered, put_of_ne c _ hpne]
      exact hpd
    have hcert : (c₀.storage b.qc.objHash).isSome = true := by
      rw [hqc, ← hc₀]
      exact put_stored h.hqc
    have hdeliver : ({ c₀ with tails := c₀.tails.filter (· ∉ b.parentHashes) } :
        Core H Sig).onDeliverBlk bnew =
          .ok (c₀.deliverBlk bnew { b with selfQc := some (.create c.config bnew) } p₀) := by
      have hhead : b.parentHashes.head? = some p₀ := by rw [hparents, hp₀]
      rw [← drop_deliver]
      simp only [Core.onDeliverBlk, hat, hbd, Bool.false_eq_true, if_false, hhead]
      exact (if_pos hall).trans (if_pos hcert)
    rw [hdeliver]
    refine ⟨hput.deliver hat hbd hall hcert p₀, ?_⟩
    rw [Res.ok, deliverBlk_eq_put hat]
    exact delivered_of (put_self c₀ bnew _)

theorem onPropose (h : c.Tailed P) (hgen : ∀ d : BlockData H Sig, d.parentHashes ≠ [] →
      P.hashBlock d ≠ P.genesisHash) (cmds : List UInt256) {parents : List H}
    (hpar : parents.all c.delivered = true) (extra : Bytes) :
    (c.onPropose P cmds parents extra).core.Tailed P := by
  unfold Core.onPropose
  split
  · exact h
  rename_i p₀ hp₀
  obtain ⟨hdelivered, hd⟩ := h.storeProposed hgen cmds hp₀ hpar extra rfl
  dsimp only
  generalize (c.storeProposed P cmds parents p₀ extra).onDeliverBlk _ = r at hdelivered hd
  cases hexit : r.exit with
  | some f =>
    rw [Res.bind_some hexit]
    exact hdelivered
  | none =>
    rw [Res.bind_none hexit]
    refine Res.bind_core (R := fun c c' => c.Tailed P → c'.Tailed P) (fun _ _ _ h h' hc => h' (h hc))
      (fun hc => ?_) (fun c hc => ?_) hdelivered
    · exact hc.of_sameBlocks (update_sameBlocks hd) (update_tails _ _)
    · exact hc.of_sameBlocks (sendProposal_sameBlocks c cmds _) (sendProposal_tails c cmds _)

/-- Every call keeps the tails, whether it returns or not. -/
theorem call (h : c.Tailed P) (hgen : ∀ d : BlockData H Sig, d.parentHashes ≠ [] →
      P.hashBlock d ≠ P.genesisHash) {i : Call H Sig} (hi : c.parentsDelivered i = true) :
    (c.call P i).core.Tailed P := by
  cases i with
  | addBlk data => exact h.addBlk data
  | onDeliverBlk blk => exact h.onDeliverBlk blk
  | onReceiveProposal prop =>
    exact h.of_sameBlocks (onReceiveProposal_sameBlocks c prop) (onReceiveProposal_tails c prop)
  | onReceiveVote vote => exact h.onReceiveVote vote
  | onReceiveSlice slice =>
    exact h.of_sameBlocks (onReceiveSlice_sameBlocks c slice) (onReceiveSlice_tails c slice)
  | onPropose cmds parents extra => exact h.onPropose hgen cmds hi extra
  | setVoteDisabled f => exact h.of_sameBlocks (.of_eq rfl rfl rfl rfl rfl) rfl

end Tailed

/-- The content of genesis after `start`. -/
theorem start_genesis (P : Primitives H Sig) (id : ReplicaID) (dummy : QuorumCert H Sig)
    (replicas : List NetAddr) (listenAddr : NetAddr) : ∃ g,
      ((Core.new P id dummy).start replicas listenAddr).storage P.genesisHash = some g ∧
        g.parentHashes = [] ∧ g.qc.objHash = P.genesisHash := by
  have hfold (l : List ReplicaID) (c : Core H Sig) (hb0 : c.b0 = P.genesisHash)
      (hg : ∃ g, c.storage P.genesisHash = some g ∧ g.parentHashes = []) :
      (l.foldl addReplica c).b0 = P.genesisHash ∧
        ∃ g, (l.foldl addReplica c).storage P.genesisHash = some g ∧ g.parentHashes = [] := by
    induction l generalizing c with
    | nil => exact ⟨hb0, hg⟩
    | cons i l ih =>
      obtain ⟨g, hg, hpar⟩ := hg
      refine ih (c.addReplica i) hb0 ⟨{ g with voted := g.voted.insert i }, ?_, hpar⟩
      change (c.modify c.b0 _).storage P.genesisHash = _
      rw [hb0, modify_eq_put hg, put_self]
  have hnew : ∃ g, (Core.new P id dummy).storage P.genesisHash = some g ∧ g.parentHashes = [] := by
    unfold Core.new
    dsimp only
    rw [Function.update_self]
    exact ⟨_, rfl, rfl⟩
  obtain ⟨hb0, g, hg, hpar⟩ := hfold (List.range replicas.length) { Core.new P id dummy with
    rse := RSE.setParams replicas.length, sc := ShardsContainer.setParams replicas.length } rfl hnew
  unfold start onInit
  dsimp only
  rw [hb0, modify_eq_put hg, put_self]
  exact ⟨_, rfl, hpar, rfl⟩

theorem start_tailed (P : Primitives H Sig) (id : ReplicaID) (dummy : QuorumCert H Sig)
    (replicas : List NetAddr) (listenAddr : NetAddr) :
    ((Core.new P id dummy).start replicas listenAddr).Tailed P := by
  have h := start_started P id dummy replicas listenAddr
  obtain ⟨g, hg, hpar, hqc⟩ := start_genesis P id dummy replicas listenAddr
  generalize (Core.new P id dummy).start replicas listenAddr = c at h hg
  have hwf := h.wellFormed
  have hgd := hwf.dag.delivered_genesis
  have hbd : g.delivered = true := (delivered_of hg).symm.trans hgd
  refine ⟨?_, fun hb hne => hwf.dag.hashed hb hne, hgd, fun {x b} hb hd => ?_, ?_,
    fun hb hq => hwf.selfQcHash hb hq⟩
  · rw [h.tails]
    refine Leaves.single (lineage_eq_some.mpr ⟨g, hg, hbd, hpar⟩) fun x hx => ?_
    rw [lineage, h.others x hx]
    rfl
  · by_cases hx : x = P.genesisHash
    · subst hx
      obtain rfl : g = b := Option.some.inj (hg.symm.trans hb)
      rw [hqc, hg]
      rfl
    · rw [h.others x hx] at hb
      cases hb
  · rw [h.hqc.2, hg]
    rfl

/-- Tails are the leaves of the delivered blocks, in every state that calls of a core lead to: blocks
may be delivered twice or too early, and calls may throw. A block with parents is not genesis. -/
theorem tails_are_leaves {id : ReplicaID} {dummy : QuorumCert H Sig} {replicas : List NetAddr}
    {listenAddr : NetAddr} {c : Core H Sig}
    (hgen : ∀ d : BlockData H Sig, d.parentHashes ≠ [] → P.hashBlock d ≠ P.genesisHash)
    (h : Transition.Reaches (caught P) (fun c i => c.parentsDelivered i = true)
      ((Core.new P id dummy).start replicas listenAddr) c) :
    c.tails.Nodup ∧ ∀ x, x ∈ c.tails ↔ c.delivered x = true ∧
      ∀ y b, c.storage y = some b → b.delivered = true → x ∉ b.parentHashes := by
  have hinv : c.Tailed P := by
    apply h.invariant (start_tailed P id dummy replicas listenAddr)
    intro c i c' hc hi hstep
    have hcall := hc.call hgen hi
    unfold caught at hstep
    dsimp only at hstep
    split at hstep
    · rw [← Option.some.inj hstep]
      exact hcall
    · rw [← Option.some.inj hstep]
      exact hcall
    · cases hstep
  refine ⟨hinv.leaves.nodup, fun x => ?_⟩
  rw [hinv.leaves.mem_iff, lineage_isSome]
  apply and_congr_right
  intro _
  constructor
  · intro hno y b hb hd
    exact hno y b.parentHashes (lineage_eq_some.mpr ⟨b, hb, hd, rfl⟩)
  · intro hno y ps hy
    obtain ⟨b, hb, hd, rfl⟩ := lineage_eq_some.mp hy
    exact hno y b hb hd

end Core

namespace Concrete

/-- Two blocks on genesis, and one on both of them. -/
def diamondBlocks : List (BlockData Nat Signature) :=
  [emptyBlock 0 (cert [] 0) 0, emptyBlock 0 (cert [] 0) 1,
    { parentHashes := [1, 2], cmds := [], qc := cert [] 0, extra := [] }]

/-- The upper block is delivered too early and one of the lower ones twice. -/
def diamondCalls : List (Call Nat Signature) :=
  diamondBlocks.map .addBlk ++ [3, 1, 2, 1, 3].map .onDeliverBlk

theorem diamond_run :
    (Transition.runBy (Core.caught (primitives diamondBlocks []))
      (fun c i => c.parentsDelivered i = true)
      ((Core.new (primitives diamondBlocks []) 0 noCert).start [10, 11, 12, 13] 10)
      diamondCalls).map (fun c => c.tails) = some [3] := by
  decide +kernel

theorem tails_are_leaves_diamond : ∃ c : Core Nat Signature, c.tails = [3] ∧
    ∀ x, x ∈ c.tails ↔ c.delivered x = true ∧
      ∀ y b, c.storage y = some b → b.delivered = true → x ∉ b.parentHashes := by
  have hgen (d : BlockData Nat Signature) (_ : d.parentHashes ≠ []) :
      (primitives diamondBlocks []).hashBlock d ≠ (primitives diamondBlocks []).genesisHash := by
    change tableHash diamondBlocks encodeBlock d ≠ 0
    unfold tableHash
    split
    · exact Nat.succ_ne_zero _
    · omega
  obtain ⟨c, hreach, htails⟩ := Transition.runBy_map_reaches diamond_run
  exact ⟨c, htails, (Core.tails_are_leaves hgen hreach).2⟩

end Concrete
end LibHotStuff
