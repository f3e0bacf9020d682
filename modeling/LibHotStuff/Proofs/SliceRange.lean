import LibHotStuff.Proofs.ReplicaRuns

namespace LibHotStuff

variable {H Sig : Type} [DecidableEq H] {P : Primitives H Sig} {n : Nat}

namespace ShardsContainer

omit [DecidableEq H] in
/-- Entries are kept or removed. -/
theorem Sized.shrinks {sc sc' : ShardsContainer H} (hs : sc.Sized n) (h : sc.Shrinks sc')
    (hnum : sc'.nodenum = sc.nodenum) : sc'.Sized n := by
  refine ⟨hnum.trans hs.nodenum, fun x e he => ?_⟩
  obtain hx | hx := h x
  · exact hs.places x e (by rwa [← hx])
  · rw [hx] at he
    cases he

/-- A property that every `insert_shard` and every removal keeps. -/
structure Lasting (I : ShardsContainer H → Prop) : Prop where
  inserted : ∀ {sc sc' : ShardsContainer H} {h : H} {idx : Nat} {data : Bytes} {rc : Int}, I sc →
    sc.insertShard h idx data = .ok (rc, sc') → I sc'
  shrinks : ∀ {sc sc' : ShardsContainer H}, I sc → sc.Shrinks sc' →
    sc'.threshold = sc.threshold ∧ sc'.nodenum = sc.nodenum → I sc'

theorem Sized.lasting (n : Nat) : Lasting (Sized (H := H) n) where
  inserted hs hok := hs.inserted hok
  shrinks hs h hcounts := hs.shrinks h hcounts.2

variable {sc sc' : ShardsContainer H} {h : H} {idx : Nat} {data : Bytes} {rc : Int}

/-- A place that has a shard keeps it, and the container stays as it is. -/
theorem insertShard_kept (hok : sc.insertShard h idx data = .ok (rc, sc')) :
    sc' = sc ∨ sc'.shardAt h idx = data := by
  obtain ⟨first, second, cur, hentry, hcur, ⟨hne, _, rfl⟩ | ⟨_, _, rfl⟩⟩ := insertShard_ok hok
  · left
    have hat := shardAt_of_newBlock hentry hcur
    unfold newBlock
    split
    · rfl
    · rename_i hnone
      rw [shardAt, hnone] at hat
      exact absurd hat.symm hne
  · right
    have hlt := (List.getElem?_eq_some_iff.mp hcur).1
    simp [shardAt, hlt]

theorem insertShard_outside (hs : sc.Sized n) (hge : n ≤ idx) :
    sc.insertShard h idx data = .error .undefined := by
  obtain he | ⟨rc, sc', hok, _⟩ := insertShard_cases sc h idx data
  · exact he
  · obtain ⟨first, _, _, hentry, hcur, _⟩ := insertShard_ok hok
    have hlt := (List.getElem?_eq_some_iff.mp hcur).1
    have hlen : first.length = n := (hs.newBlock h).places h _ hentry
    omega

end ShardsContainer

namespace Core

variable {R : Rules H Sig} {c c' : Core H Sig} {outs : List (Output H Sig)}

variable {I : ShardsContainer H → Prop}

theorem Committed.lasting (hI : ShardsContainer.Lasting I) {queue done : List H} {r : Res H Sig}
    (h : c.Committed queue r done) (hs : I c.sc) : I r.core.sc :=
  hI.shrinks hs (fun x => (h.shards x).imp_right And.right) h.counts

theorem Move.lasting (hI : ShardsContainer.Lasting I) (h : Move P R c outs c') (hs : I c.sc) :
    I c'.sc := by
  cases h with
  | pre h =>
    cases h with
    | shards ht =>
      obtain ⟨_, hok⟩ := ht.inserted
      exact hI.inserted hs hok
    | slice _ _ => exact hs
    | prepare _ hp =>
      have hsc := congrArg Core.sc hp.rest
      rw [hsc]
      exact hs
    | propose hg _ _ _ =>
      rw [hg.quiet.sc]
      exact hs
  | commit hto _ _ => exact hto.committed.lasting hI hs

theorem Steps.lasting (hI : ShardsContainer.Lasting I) (h : Steps (Move P R) c outs c')
    (hs : I c.sc) : I c'.sc := by
  induction h with
  | nil => exact hs
  | cons hm _ ih => exact ih (hm.lasting hI hs)

theorem Ends.lasting (hI : ShardsContainer.Lasting I) {own : Option H} {res : Res H Sig}
    (h : Ends P R c own res) (hs : I c.sc) : I res.core.sc := by
  cases h with
  | breach hsteps _ _ _ => exact hsteps.move.lasting hI hs
  | fault hsteps _ => exact hsteps.lasting hI hs
  | commit hsteps hto _ _ => exact hto.committed.lasting hI (hsteps.move.lasting hI hs)
  | @vote u _ _ prop hsteps _ _ _ =>
    change I (u.castVote P prop).core.sc
    rw [castVote_sc]
    exact hsteps.lasting hI hs

theorem onReceiveSlice_lasting (hI : ShardsContainer.Lasting I) (hs : I c.sc) (s : Slice H) :
    I (c.onReceiveSlice P s).core.sc := by
  obtain heq | heq | ⟨_, _, sc, hok, heq⟩ := onReceiveSlice_eq (P := P) c s
  · rw [heq]
    exact hs
  · rw [heq]
    exact hs
  · rw [heq]
    exact hI.inserted hs hok

/-- Every call keeps such a property of the container. -/
theorem call_lasting (hI : ShardsContainer.Lasting I) (hc : c.WellFormed P) (hs : I c.sc)
    {i : Call H Sig} (hi : Replica.Asks P c i) : I (c.call P i).core.sc := by
  cases i with
  | addBlk data =>
    have hsc := (addBlk_grows hc data).1.quiet.sc
    change I (c.addBlk P data.fetched).sc
    rw [hsc]
    exact hs
  | onDeliverBlk blk =>
    have hsc := (deliver_grows hc hi).1.quiet.sc
    change I (c.onDeliverBlk blk).core.sc
    rw [hsc]
    exact hs
  | onReceiveProposal prop => exact (onReceiveProposal_ends_any hc prop).lasting hI hs
  | onReceiveVote vote =>
    change I (c.onReceiveVote vote).core.sc
    rw [(onReceiveVote_rest hc vote).1]
    exact hs
  | onReceiveSlice s => exact onReceiveSlice_lasting hI hs s
  | onPropose cmds parents extra =>
    have hends := onPropose_ends (R := .any H Sig) hc cmds parents extra rfl
      (fun _ => trivial) (fun _ _ _ => trivial) (fun _ _ _ => trivial) (fun _ _ _ _ => trivial)
    have hpar : parents.all c.delivered = true := hi
    rw [hpar] at hends
    exact (hends.resolve_left fun h => nomatch h.1).lasting hI hs
  | setVoteDisabled f => exact hi.elim

/-- A slice is dropped, or its data is put at the place of its index. -/
def PutsInRange (c : Core H Sig) (s : Slice H) (r : Res H Sig) : Prop :=
  r.exit = none ∧ (r.core.sc = c.sc ∨ 0 ≤ s.mIndex ∧ s.mIndex < c.sc.nodenum ∧
    r.core.sc.shardAt s.mBlkHash s.mIndex.toNat = s.mData)

/-- `on_receive_slice` stays in range exactly for the slices that are invalid or in range. -/
theorem onReceiveSlice_range (hs : c.sc.Sized n) (hn : n ≤ 2 ^ 16) {s : Slice H}
    (hdec : s.decodable = true) : c.PutsInRange s (c.onReceiveSlice P s) ↔
      (s.validate P.sha256Hex = true → 0 ≤ s.mIndex ∧ s.mIndex < n) := by
  unfold onReceiveSlice
  split
  · rename_i hvalid
    simp only [hvalid, forall_const]
    by_cases hlt : s.place < n
    · have hindex := s.place_eq hdec (by omega)
      obtain ⟨rc, sc', hok⟩ := hs.insertShard hlt s.mBlkHash s.mData
      have hok' := hok
      rw [Slice.place] at hok'
      rw [hok']
      refine iff_of_true ⟨rfl, ?_⟩ (by omega)
      obtain heq | hat := ShardsContainer.insertShard_kept hok
      · exact Or.inl heq
      · refine Or.inr ⟨by omega, by rw [hs.nodenum]; omega, ?_⟩
        have hnat : s.mIndex.toNat = s.place := by omega
        rw [hnat]
        exact hat
    · have hout : c.sc.insertShard s.mBlkHash (s.mIndex % 2 ^ 32).toNat s.mData =
          .error .undefined :=
        ShardsContainer.insertShard_outside hs (Nat.le_of_not_lt hlt)
      rw [hout]
      refine iff_of_false (fun hr => nomatch hr.1) fun hrange => hlt ?_
      rw [Slice.place]
      omega
  · rename_i hinvalid
    exact iff_of_true ⟨rfl, Or.inl rfl⟩ fun hvalid => absurd hvalid hinvalid

end Core

namespace Replica

/-- Such a property holds of the container in every state of a run if it holds at its start. -/
theorem Runs.lasting {I : ShardsContainer H → Prop} (hI : ShardsContainer.Lasting I)
    {nd : Replica H Sig} {dummy : QuorumCert H Sig} {replicas : List NetAddr}
    {listenAddr : NetAddr} {id : ReplicaID} {cond : Replica H Sig → Event H Sig → Prop}
    (h : nd.Runs P dummy replicas listenAddr id cond) (hinit : I (.setParams replicas.length)) :
    I nd.core.sc := by
  have hstart : I ((Core.new P id dummy).start replicas listenAddr).sc := by
    rw [(Core.start_started P id dummy replicas listenAddr).sc]
    exact hinit
  have hboth : nd.core.WellFormed P ∧ (fun c : Core H Sig => I c.sc) nd.core :=
    h.always hstart fun c i hc hs hi => Core.call_lasting hI hc hs hi
  exact hboth.2

/-- Where slices go: in every state of a run of a replica, whatever its peers send,
`on_receive_slice` drops a slice or puts it at its index, a place of the container, exactly when the
slice is invalid or its index is in range. With a root hash of its own a slice is valid for any
index, data and branch. -/
theorem slice_in_range {nd : Replica H Sig} {dummy : QuorumCert H Sig} {replicas : List NetAddr}
    {listenAddr : NetAddr} {id : ReplicaID} (hwidth : replicas.length ≤ 2 ^ 16)
    (h : nd.Runs P dummy replicas listenAddr id fun _ _ => True) :
    (∀ s : Slice H, s.decodable = true → (nd.core.PutsInRange s (nd.core.onReceiveSlice P s) ↔
      (s.validate P.sha256Hex = true → 0 ≤ s.mIndex ∧ s.mIndex < replicas.length))) ∧
    ∀ (data : Bytes) (index : Int) (branch : List Bytes) (blk : H), ∃ root,
      ({ mData := data, mIndex := index, mRootHash := root, mBranch := branch
         mBlkHash := blk } : Slice H).validate P.sha256Hex = true := by
  have hsized : nd.core.sc.Sized replicas.length :=
    h.lasting (ShardsContainer.Sized.lasting _) ⟨rfl, fun _ _ he => nomatch he⟩
  refine ⟨fun s hdec => Core.onReceiveSlice_range hsized hwidth hdec,
    fun data index branch blk => ⟨MerkleProof.climb P.sha256Hex branch (P.sha256Hex data) index, ?_⟩⟩
  simp [MerkleProof.validate]

end Replica

namespace Concrete

/-- A slice without a branch, valid for any index. -/
def placedSlice (index : Int) : Slice Nat :=
  { mData := [7], mIndex := index, mRootHash := digest [7], mBranch := [], mBlkHash := 1 }

/-- Replica 1 gets slice 2 of a block. -/
def sliceTwo : List (Event Nat Signature) :=
  [.receiveSlice 1 0 ((primitives [] []).hashSlice (placedSlice 2)) (placedSlice 2)]

set_option maxRecDepth 100000 in
theorem slice_two_run :
    (Transition.runBy (Replica.handle (primitives [] [])) (fun _ _ => True)
      (Replica.init (primitives [] []) noCert [10, 11, 12, 13] 11 1) sliceTwo).map
        (fun nd => nd.core.sc.shardAt 1 2) = some [7] := by
  decide +kernel

/-- The data is at place 2, and slice 3 of the block goes to a place of the container. -/
theorem slice_in_range_three : ∃ nd : Replica Nat Signature,
    nd.core.sc.shardAt 1 2 = [7] ∧ nd.core.PutsInRange (placedSlice 3)
      (nd.core.onReceiveSlice (primitives [] []) (placedSlice 3)) := by
  obtain ⟨nd, hreach, hshard⟩ := Transition.runBy_map_reaches slice_two_run
  have hrange := (Replica.slice_in_range (by decide) hreach).1 (placedSlice 3) (by decide)
  exact ⟨nd, hshard, hrange.mpr fun _ => by decide⟩

/-- The slice is decodable, but it is not put at a place of the container. -/
def OutOfRange (nd : Replica Nat Signature) (s : Slice Nat) : Prop :=
  s.decodable = true ∧ ¬ nd.core.PutsInRange s (nd.core.onReceiveSlice (primitives [] []) s)

/-- A slice with index 4 and one with index -1 are valid, and are put outside of the container of
four replicas. -/
theorem slice_out_of_range : ∃ nd : Replica Nat Signature,
    (nd.Runs (primitives [] []) noCert [10, 11, 12, 13] 11 1 fun _ _ => True) ∧
      OutOfRange nd (placedSlice 4) ∧ OutOfRange nd (placedSlice (-1)) := by
  have hexit : ∀ index ∈ [4, -1], (placedSlice index).decodable = true ∧
      ((Replica.init (primitives [] []) noCert [10, 11, 12, 13] 11 1).core.onReceiveSlice
        (primitives [] []) (placedSlice index)).exit ≠ none := by
    decide +kernel
  have hout : ∀ index ∈ [4, -1], OutOfRange
      (Replica.init (primitives [] []) noCert [10, 11, 12, 13] 11 1) (placedSlice index) :=
    fun index hindex => ⟨(hexit index hindex).1, fun h => (hexit index hindex).2 h.1⟩
  exact ⟨_, .refl, hout 4 (by simp), hout (-1) (by simp)⟩

end Concrete
end LibHotStuff
