import LibHotStuff.Library.Transition
import LibHotStuff.Proofs.CommitLoop
import LibHotStuff.Proofs.PruneLoop
import LibHotStuff.Proofs.PrunedCalls

namespace LibHotStuff

variable {H Sig : Type} [DecidableEq H] {P : Primitives H Sig}

namespace Core

variable {c c' p u : Core H Sig} {x : H}

/-- The stored blocks have been stored before, but for one. -/
def StoresOnly (new : Option H) (c c' : Core H Sig) : Prop :=
  ∀ x, (c'.storage x).isSome → (c.storage x).isSome ∨ new = some x

omit [DecidableEq H] in
theorem StoresOnly.refl (new : Option H) (c : Core H Sig) : StoresOnly new c c := fun _ => Or.inl

omit [DecidableEq H] in
theorem StoresOnly.trans {new : Option H} (c c' c'' : Core H Sig) (h : StoresOnly new c c')
    (h' : StoresOnly new c' c'') : StoresOnly new c c'' := by
  intro x hx
  obtain hx | hx := h' x hx
  · exact h x hx
  · exact Or.inr hx

omit [DecidableEq H] in
theorem SameBlocks.storesOnly (h : c.SameBlocks c') (new : Option H) : StoresOnly new c c' := by
  intro x hx
  have heq := congrArg Option.isSome (h.blocks x)
  rw [Option.isSome_map, Option.isSome_map] at heq
  exact Or.inl (heq ▸ hx)

theorem modify_storesOnly (c : Core H Sig) (y : H) (f : Block H Sig → Block H Sig)
    (new : Option H) : StoresOnly new c (c.modify y f) := by
  intro x hx
  by_cases hxy : x = y
  · rw [hxy, modify_self, Option.isSome_map] at hx
    rw [hxy]
    exact Or.inl hx
  · rw [modify_of_ne c f hxy] at hx
    exact Or.inl hx

theorem put_storesOnly (c : Core H Sig) (y : H) (b : Block H Sig) :
    StoresOnly (some y) c (c.put y b) := by
  intro x hx
  by_cases hxy : x = y
  · exact Or.inr (congrArg some hxy.symm)
  · rw [put_of_ne c b hxy] at hx
    exact Or.inl hx

theorem addBlk_storesOnly (c : Core H Sig) (d : BlockData H Sig) :
    StoresOnly (some (P.hashBlock d)) c (c.addBlk P d.fetched) := by
  unfold addBlk
  split
  · exact .refl _ c
  · exact put_storesOnly c _ _

theorem onDeliverBlk_storesOnly (c : Core H Sig) (blk : H) (new : Option H) :
    StoresOnly new c (c.onDeliverBlk blk).core := by
  unfold onDeliverBlk
  repeat' split
  all_goals first | exact .refl _ c | exact modify_storesOnly c blk _ new

omit [DecidableEq H] in
theorem updateHqc_storesOnly (c : Core H Sig) (y : H) (qc : QuorumCert H Sig) (new : Option H) :
    StoresOnly new c (c.updateHqc y qc).core := by
  obtain ⟨hqc, hframe⟩ := updateHqc_frame c y qc
  rw [hframe]
  exact fun _ => Or.inl

theorem update_storesOnly (c : Core H Sig) (nblk : H) (new : Option H) :
    StoresOnly new c (c.update P nblk).core := by
  unfold update
  repeat' split
  all_goals try exact .refl _ c
  refine Res.bind_core (R := StoresOnly _) StoresOnly.trans ?_ fun c => ?_
  · exact updateHqc_storesOnly c _ _ _
  · exact (updateLock_sameBlocks c _).storesOnly _

theorem onReceiveVote_storesOnly (c : Core H Sig) (vote : Vote H Sig) (new : Option H) :
    StoresOnly new c (c.onReceiveVote vote).core := by
  have hmodify (f : Block H Sig → Block H Sig) := modify_storesOnly c vote.blkHash f new
  unfold onReceiveVote
  dsimp only
  repeat' split
  all_goals try exact .refl _ c
  · exact hmodify _
  · refine Res.bind_core (R := StoresOnly _) StoresOnly.trans ?_ fun c => .refl _ c
    exact StoresOnly.trans _ _ _ (hmodify _) (updateHqc_storesOnly _ _ _ _)
  · exact hmodify _

theorem onPropose_storesOnly (c : Core H Sig) (cmds : List UInt256) (parents : List H)
    (extra : Bytes) :
    StoresOnly (some (P.hashBlock (c.proposedData P cmds parents extra))) c
      (c.onPropose P cmds parents extra).core := by
  unfold onPropose
  cases parents.head? with
  | none => exact .refl _ c
  | some p₀ =>
    have hstored : StoresOnly (some (P.hashBlock (c.proposedData P cmds parents extra))) c
        (c.storeProposed P cmds parents p₀ extra) := by
      rw [storeProposed_eq]
      exact put_storesOnly c _ _
    refine Res.bind_core (R := StoresOnly _) StoresOnly.trans ?_ fun c' => ?_
    · exact StoresOnly.trans _ _ _ hstored (onDeliverBlk_storesOnly _ _ _)
    · refine Res.bind_core (R := StoresOnly _) StoresOnly.trans ?_ fun c' => ?_
      · exact update_storesOnly c' _ _
      · exact (sendProposal_sameBlocks c' cmds _).storesOnly _

/-- The block that a call stores. -/
theorem handled_storesOnly (c : Core H Sig) (i : Call H Sig) :
    StoresOnly (Pruning.stores P c i) c (Pruning.handled P c i).core := by
  have called (hcall : StoresOnly (Pruning.stores P c i) c (c.call P i).core) :
      StoresOnly (Pruning.stores P c i) c (if c.permits P i then c.call P i else .ok c).core := by
    split
    · exact hcall
    · exact .refl _ c
  cases i with
  | addBlk data => exact called (addBlk_storesOnly c data)
  | onDeliverBlk blk => exact called (onDeliverBlk_storesOnly c blk _)
  | onReceiveProposal prop => exact called ((onReceiveProposal_sameBlocks c prop).storesOnly _)
  | onReceiveVote vote => exact called (onReceiveVote_storesOnly c vote _)
  | onReceiveSlice s => exact called ((onReceiveSlice_sameBlocks c s).storesOnly _)
  | onPropose cmds parents extra => exact called (onPropose_storesOnly c cmds parents extra)
  | setVoteDisabled f => exact .refl _ c

theorem handled_wellFormed (hu : u.WellFormed P) (i : Call H Sig) :
    (Pruning.handled P u i).core.WellFormed P := by
  have called : (if u.permits P i then u.call P i else .ok u).core.WellFormed P := by
    split
    · rename_i hi
      exact call_wellFormed hu hi
    · exact hu
  cases i with
  | setVoteDisabled f =>
    exact hu.of_sameDag (.of_storage rfl rfl) (fun _ => rfl) rfl rfl rfl rfl (List.Subset.refl _)
      fun hb => hu.selfQcHash hb
  | addBlk | onDeliverBlk | onReceiveProposal | onReceiveVote | onReceiveSlice | onPropose =>
    exact called

omit [DecidableEq H] in
/-- A core that has been started refers to genesis only. -/
theorem Started.closed {id : ReplicaID} {total nmaj : Nat} (h : c.Started P id total nmaj) :
    c.Closed := by
  obtain ⟨g, hg, hpar, _, hdel, _⟩ := h.genesis
  obtain ⟨g', hg', hqc, hself⟩ := h.certified
  obtain rfl : g = g' := Option.some.inj (hg.symm.trans hg')
  have honly {x : H} {b : Block H Sig} (hb : c.storage x = some b) :
      x = P.genesisHash ∧ b = g := by
    by_cases hx : x = P.genesisHash
    · subst hx
      exact ⟨rfl, Option.some.inj (hb.symm.trans hg)⟩
    · rw [h.others x hx] at hb
      cases hb
  have hgd : c.delivered P.genesisHash = true := by rw [delivered_of hg, hdel]
  refine ⟨fun hb y hy => ?_, fun hb hq => ?_, ?_, ?_, ?_, ?_, fun hb hq => ?_⟩
  · rw [(honly hb).2, hpar] at hy
    cases hy
  · rw [(honly hb).2, hqc] at hq
    rw [← Option.some.inj hq, hg]
    rfl
  · rw [h.b0, hgd]
  · rw [h.hqc.1, hgd]
  · rw [h.bLock, hgd]
  · rw [h.bExec, hgd]
  · obtain ⟨rfl, rfl⟩ := honly hb
    rw [hself] at hq
    rw [← Option.some.inj hq, h.hqc.2]

end Core

namespace Pruning

variable {s s' : Pruning H Sig}

/-- What holds of the two cores between two events. -/
structure Paired (P : Primitives H Sig) (s : Pruning H Sig) : Prop where
  tracks : s.pruned.Tracks s.unpruned
  wellFormed : s.unpruned.WellFormed P
  keyed : s.pruned.Keyed s.keys
  log : s.prunedLog = s.unprunedLog

/-- What calls ask for; `prune` may come at any time. -/
def transparent [DecidableEq Sig] (P : Primitives H Sig) (s : Pruning H Sig) :
    PruneEvent H Sig → Bool
  | .call i => Core.transparent P s.pruned s.unpruned i
  | .prune _ _ => true

omit [DecidableEq H] in
/-- Keys that are sorted out after a step. -/
theorem keyed_filter {p : Core H Sig} {keys : List H} (h : p.Keyed keys) :
    p.Keyed (keys.filter fun h => (p.storage h).isSome) :=
  fun x hx => List.mem_filter.mpr ⟨h x hx, hx⟩

/-- The keys after a call. -/
theorem handled_keyed {p : Core H Sig} {keys : List H} (h : p.Keyed keys) (i : Call H Sig) :
    (handled P p i).core.Keyed (((stores P p i).toList ∪ keys).filter fun h =>
      ((handled P p i).core.storage h).isSome) := by
  refine keyed_filter fun x hx => ?_
  rw [List.mem_union_iff, Option.mem_toList]
  obtain hold | hnew := Core.handled_storesOnly p i x hx
  · exact Or.inr (h x hold)
  · exact Or.inl hnew

theorem Paired.step [DecidableEq Sig] (h : s.Paired P) {e : PruneEvent H Sig}
    (he : s.transparent P e = true) (hstep : s.step P e = some s') : s'.Paired P := by
  cases e with
  | call i =>
    simp only [Pruning.step] at hstep
    split at hstep
    · cases hstep
    have halike := h.tracks.handled h.wellFormed he
    rw [← Option.some.inj hstep]
    refine ⟨halike.tracks, Core.handled_wellFormed h.wellFormed i, handled_keyed h.keyed i, ?_⟩
    dsimp only
    rw [h.log, halike.emitted]
  | prune staleness held =>
    obtain ⟨p', hprune, htracks, hkeyed⟩ :=
      h.tracks.prune ⟨s.keys, held⟩ h.keyed staleness
    simp only [Pruning.step, hprune, Option.map_some] at hstep
    rw [← Option.some.inj hstep]
    exact ⟨htracks, h.wellFormed, keyed_filter hkeyed, h.log⟩

theorem init_paired (P : Primitives H Sig) (dummy : QuorumCert H Sig) (replicas : List NetAddr)
    (listenAddr : NetAddr) (id : ReplicaID) :
    (init P dummy replicas listenAddr id).Paired P := by
  have hstarted := Core.start_started P id dummy replicas listenAddr
  refine ⟨⟨hstarted.closed, rfl, fun _ => .same _⟩, hstarted.wellFormed, fun x hx => ?_, rfl⟩
  by_cases hgen : x = P.genesisHash
  · rw [hgen]
    exact List.mem_singleton_self _
  · have hx' : (((Core.new P id dummy).start replicas listenAddr).storage x).isSome := hx
    rw [hstarted.others x hgen] at hx'
    cases hx'

variable [DecidableEq Sig] {dummy : QuorumCert H Sig} {replicas : List NetAddr}
  {listenAddr : NetAddr} {id : ReplicaID}

theorem paired_of_reaches (h : Transition.Reaches (step P) (fun s e => s.transparent P e = true)
    (init P dummy replicas listenAddr id) s) : s.Paired P :=
  Transition.Reaches.invariant h (init_paired P dummy replicas listenAddr id)
    fun _ _ _ hpaired he hstep => hpaired.step he hstep

/-- `prune` returns whenever it is called. -/
theorem prune_returns (h : Transition.Reaches (step P) (fun s e => s.transparent P e = true)
    (init P dummy replicas listenAddr id) s) (staleness : Nat) (held : List H) :
    (s.step P (.prune staleness held)).isSome := by
  have hpaired := paired_of_reaches h
  obtain ⟨p', hprune, _⟩ := hpaired.tracks.prune ⟨s.keys, held⟩ hpaired.keyed staleness
  rw [Pruning.step, hprune]
  rfl

end Pruning
namespace Concrete

end Concrete
end LibHotStuff
