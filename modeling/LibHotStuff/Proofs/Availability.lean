import LibHotStuff.Proofs.SliceFlow
import LibHotStuff.Proofs.SliceRange
import Mathlib

/-! The slices of a certified block that its correct signers have handed out. -/

namespace LibHotStuff

variable {H Sig : Type} {P : Primitives H Sig}

namespace ShardsContainer

/-- The places that have a shard. -/
def filled (shards : List Bytes) : Finset Nat :=
  (Finset.range shards.length).filter fun i => shards[i]? ≠ some []

theorem mem_filled {shards : List Bytes} {i : Nat} :
    i ∈ filled shards ↔ ∃ data, shards[i]? = some data ∧ data ≠ [] := by
  rw [filled, Finset.mem_filter, Finset.mem_range]
  constructor
  · rintro ⟨hlt, hne⟩
    rw [List.getElem?_eq_getElem hlt] at hne ⊢
    exact ⟨_, rfl, fun hnil => hne (congrArg some hnil)⟩
  · rintro ⟨data, hdata, hne⟩
    obtain ⟨hlt, _⟩ := List.getElem?_eq_some_iff.mp hdata
    rw [hdata]
    exact ⟨hlt, fun heq => hne (Option.some.inj heq)⟩

theorem filled_replicate (n : Nat) : filled (List.replicate n []) = ∅ := by
  apply Finset.eq_empty_of_forall_notMem
  intro i hi
  obtain ⟨data, hdata, hne⟩ := mem_filled.mp hi
  exact hne (List.eq_of_mem_replicate (List.mem_of_getElem? hdata))

theorem filled_set (shards : List Bytes) (idx : Nat) (data : Bytes) :
    filled (shards.set idx data) ⊆ insert idx (filled shards) := by
  intro i hi
  rw [Finset.mem_insert]
  by_cases hidx : i = idx
  · exact Or.inl hidx
  · right
    rw [mem_filled] at hi ⊢
    rwa [List.getElem?_set_ne (Ne.symm hidx)] at hi

/-- The counter of a block is no less than the number of places that have a shard or are in a set. -/
def Covers (sc : ShardsContainer H) (h : H) (T : Finset Nat) : Prop :=
  match sc.shards h with
  | none => T = ∅
  | some (shards, count) => (T ∪ filled shards).card ≤ count

/-- A container for `n` replicas that counts each shard it has. -/
structure Stocked (n : Nat) (sc : ShardsContainer H) : Prop where
  sized : sc.Sized n
  threshold : sc.threshold = n - (n - 1) / 3
  counted : ∀ h, sc.Covers h ∅

variable {sc sc' : ShardsContainer H} {h : H} {T T' : Finset Nat} {n idx : Nat} {data : Bytes}
  {rc : Int}

theorem covers_none (h0 : sc.shards h = none) : sc.Covers h T ↔ T = ∅ := by
  rw [Covers, h0]

theorem covers_some {shards : List Bytes} {count : Nat} (h0 : sc.shards h = some (shards, count)) :
    sc.Covers h T ↔ (T ∪ filled shards).card ≤ count := by
  rw [Covers, h0]

theorem covers_congr (heq : sc'.shards h = sc.shards h) : sc'.Covers h T ↔ sc.Covers h T := by
  rw [Covers, Covers, heq]

theorem Covers.mono (hc : sc.Covers h T) (hsub : T' ⊆ T) : sc.Covers h T' := by
  cases h0 : sc.shards h with
  | none =>
    rw [covers_none h0] at hc ⊢
    exact Finset.subset_empty.mp (hc ▸ hsub)
  | some e =>
    rw [covers_some h0] at hc ⊢
    exact (Finset.card_le_card (Finset.union_subset_union_left hsub)).trans hc

/-- A block that has got shards for enough places can be had. -/
theorem Covers.getBlock (hc : sc.Covers h T) (hpos : 0 < sc.threshold)
    (henough : sc.threshold ≤ T.card) : (sc.getBlock h).1 = 0 := by
  cases h0 : sc.shards h with
  | none =>
    rw [covers_none h0] at hc
    rw [hc, Finset.card_empty] at henough
    omega
  | some e =>
    rw [covers_some h0] at hc
    have hsub : T ⊆ T ∪ filled e.1 := Finset.subset_union_left
    have hle := Finset.card_le_card hsub
    have hcount : ¬e.2 < sc.threshold := by omega
    simp [ShardsContainer.getBlock, h0, hcount]

theorem Stocked.start (n : Nat) : (setParams (H := H) n).Stocked n :=
  ⟨⟨rfl, fun _ _ he => nomatch he⟩, rfl, fun _ => rfl⟩

theorem Stocked.shrinks (hs : sc.Stocked n) (h : sc.Shrinks sc')
    (hcounts : sc'.threshold = sc.threshold ∧ sc'.nodenum = sc.nodenum) : sc'.Stocked n := by
  refine ⟨hs.sized.shrinks h hcounts.2, hcounts.1.trans hs.threshold, fun x => ?_⟩
  obtain hx | hx := h x
  · exact (covers_congr hx).mpr (hs.counted x)
  · exact (covers_none hx).mpr rfl

variable [DecidableEq H]

theorem newBlock_covers (hc : sc.Covers h T) : (sc.newBlock h).Covers h T := by
  unfold newBlock
  split
  · exact hc
  · rename_i hnone
    rw [covers_none hnone] at hc
    rw [covers_some (Function.update_self h _ _), hc, filled_replicate, Finset.empty_union,
      Finset.card_empty]

/-- An `insert_shard` that returns adds its place. -/
theorem insertShard_covers (hc : sc.Covers h T) (hok : sc.insertShard h idx data = .ok (rc, sc')) :
    sc'.Covers h (insert idx T) := by
  have hnew := newBlock_covers hc
  obtain ⟨shards, count, cur, hentry, hcur, ⟨hne, _, rfl⟩ | ⟨_, _, rfl⟩⟩ := insertShard_ok hok
  · rw [covers_some hentry] at hnew ⊢
    have hmem : idx ∈ T ∪ filled shards :=
      Finset.mem_union_right _ (mem_filled.mpr ⟨cur, hcur, hne⟩)
    rwa [Finset.insert_union, Finset.insert_eq_of_mem hmem]
  · rw [covers_some hentry] at hnew
    rw [covers_some (Function.update_self h _ _)]
    have hsub : insert idx T ∪ filled (shards.set idx data) ⊆ insert idx (T ∪ filled shards) := by
      rw [Finset.insert_union]
      apply Finset.insert_subset (Finset.mem_insert_self _ _)
      apply Finset.union_subset
      · exact Finset.subset_union_left.trans (Finset.subset_insert _ _)
      · apply (filled_set shards idx data).trans
        exact Finset.insert_subset_insert _ Finset.subset_union_right
    have hcard := Finset.card_le_card hsub
    have hins := Finset.card_insert_le idx (T ∪ filled shards)
    omega

theorem Stocked.inserted (hs : sc.Stocked n) (hok : sc.insertShard h idx data = .ok (rc, sc')) :
    sc'.Stocked n := by
  refine ⟨hs.sized.inserted hok, ?_, fun x => ?_⟩
  · obtain he | ⟨_, _, heq, hthr, _⟩ := insertShard_cases sc h idx data
    · rw [he] at hok
      cases hok
    · rw [heq] at hok
      cases hok
      exact hthr.trans hs.threshold
  · by_cases hx : x = h
    · subst hx
      exact (insertShard_covers (hs.counted x) hok).mono (Finset.empty_subset _)
    · exact (covers_congr (insertShard_other hok hx)).mpr (hs.counted x)

theorem Stocked.lasting (n : Nat) : Lasting (Stocked (H := H) n) where
  inserted hs hok := hs.inserted hok
  shrinks hs h hcounts := hs.shrinks h hcounts

end ShardsContainer

theorem Res.mem_bind {r : Res H Sig} {k : Core H Sig → Res H Sig} {o : Output H Sig}
    (h : o ∈ (r.bind k).outs) : o ∈ r.outs ∨ o ∈ (k r.core).outs := by
  cases hexit : r.exit with
  | none =>
    rw [Res.bind_none hexit] at h
    exact List.mem_append.mp h
  | some f =>
    rw [Res.bind_some hexit] at h
    exact Or.inl h

namespace Core

variable [DecidableEq H] {c : Core H Sig} {h : H} {T U : Finset Nat} {n : Nat}

/-- `on_receive_slice` for one slice after the other. -/
def onReceiveSlices (P : Primitives H Sig) : Core H Sig → List (Slice H) → Res H Sig
  | c, [] => .ok c
  | c, s :: rest => (c.onReceiveSlice P s).bind fun c => onReceiveSlices P c rest

/-- A slice that is taken in adds its place. -/
theorem onReceiveSlice_covers (hc : c.sc.Covers h T) {s : Slice H}
    (hexit : (c.onReceiveSlice P s).exit = none) :
    (c.onReceiveSlice P s).core.sc.Covers h
      (if s.mBlkHash = h ∧ s.validate P.sha256Hex = true then insert s.place T else T) := by
  unfold onReceiveSlice at hexit ⊢
  by_cases hvalid : s.validate P.sha256Hex = true
  swap
  · rw [if_neg hvalid, if_neg fun hs => hvalid hs.2]
    exact hc
  rw [if_pos hvalid] at hexit ⊢
  split
  · rename_i f hf
    rw [hf] at hexit
    cases hexit
  · rename_i rc sc hok
    by_cases hh : s.mBlkHash = h
    · subst hh
      rw [if_pos ⟨rfl, hvalid⟩]
      exact ShardsContainer.insertShard_covers hc hok
    · rw [if_neg fun hs => hh hs.1]
      have hother := ShardsContainer.insertShard_other hok (Ne.symm hh)
      exact (ShardsContainer.covers_congr hother).mpr hc

/-- Slices that are taken in add their places, whatever else comes with them. -/
theorem onReceiveSlices_covers {sls : List (Slice H)} (hs : c.sc.Stocked n) (hc : c.sc.Covers h T)
    (hexit : (c.onReceiveSlices P sls).exit = none)
    (hU : ∀ i ∈ U, i ∈ T ∨ ∃ s ∈ sls, s.mBlkHash = h ∧ s.validate P.sha256Hex = true ∧ s.place = i) :
    (c.onReceiveSlices P sls).core.sc.Stocked n ∧ (c.onReceiveSlices P sls).core.sc.Covers h U := by
  induction sls generalizing c T with
  | nil =>
    refine ⟨hs, hc.mono fun i hi => ?_⟩
    obtain hT | ⟨s, hmem, _⟩ := hU i hi
    · exact hT
    · cases hmem
  | cons s rest ih =>
    unfold onReceiveSlices at hexit ⊢
    have hfirst : (c.onReceiveSlice P s).exit = none := by
      cases hexit' : (c.onReceiveSlice P s).exit with
      | none => rfl
      | some f =>
        rw [Res.bind_some hexit', hexit'] at hexit
        cases hexit
    rw [Res.bind_none hfirst] at hexit ⊢
    refine ih (onReceiveSlice_lasting (ShardsContainer.Stocked.lasting n) hs s)
      (onReceiveSlice_covers hc hfirst) hexit fun i hi => ?_
    obtain hT | ⟨s', hmem, hblk, hvalid, hplace⟩ := hU i hi
    · left
      split
      · exact Finset.mem_insert_of_mem hT
      · exact hT
    · obtain rfl | hmem := List.mem_cons.mp hmem
      · left
        rw [if_pos ⟨hblk, hvalid⟩, ← hplace]
        exact Finset.mem_insert_self _ _
      · exact Or.inr ⟨s', hmem, hblk, hvalid, hplace⟩

/-- Slices with a place each are taken in. -/
theorem onReceiveSlices_returns {sls : List (Slice H)} (hs : c.sc.Stocked n)
    (hplaces : ∀ s ∈ sls, s.place < n) : (c.onReceiveSlices P sls).exit = none := by
  induction sls generalizing c with
  | nil => rfl
  | cons s rest ih =>
    have hfirst : (c.onReceiveSlice P s).exit = none := by
      unfold onReceiveSlice
      split
      · obtain ⟨rc, sc, hok⟩ := hs.sized.insertShard (hplaces s List.mem_cons_self) s.mBlkHash s.mData
        rw [Slice.place] at hok
        rw [hok]
        rfl
      · rfl
    rw [onReceiveSlices, Res.bind_none hfirst]
    exact ih (onReceiveSlice_lasting (ShardsContainer.Stocked.lasting n) hs s)
      fun s' hs' => hplaces s' (List.mem_cons_of_mem _ hs')

variable {u : Core H Sig}

theorem update_id (hc : c.WellFormed P) {nblk : H} (hd : c.delivered nblk = true) :
    (c.update P nblk).core.id = c.id := by
  obtain ⟨c', outs, hprep, hup⟩ := update_steps hc hd
  obtain ⟨_, heq⟩ | ⟨_, _, heq⟩ | ⟨_, _, _, _, _, heq⟩ |
    ⟨_, _, _, hto, ⟨_, heq⟩ | ⟨_, _, heq⟩⟩ := hup
  · rw [heq]
    exact hprep.id
  · rw [heq]
    exact hprep.id
  · rw [heq]
    exact hprep.id
  · rw [heq]
    exact hto.committed.same.id.trans hprep.id
  · rw [heq]
    exact hto.committed.same.id.trans hprep.id

theorem update_hands (hc : c.WellFormed P) {nblk : H} (hd : c.delivered nblk = true) (s : Slice H) :
    .doBroadcastSlice s ∉ (c.update P nblk).outs := by
  have hnone {outs : List (Output H Sig)} (h : outs.flatMap Output.slices = []) :
      .doBroadcastSlice s ∉ outs := by
    intro hmem
    have hs : s ∈ outs.flatMap Output.slices :=
      List.mem_flatMap.mpr ⟨_, hmem, List.mem_singleton_self s⟩
    rw [h] at hs
    cases hs
  obtain ⟨c', outs, hprep, hup⟩ := update_steps hc hd
  have hfirst : outs.flatMap Output.slices = [] := by
    obtain ho | ho := hprep.outs_eq <;> rw [ho] <;> rfl
  apply hnone
  obtain ⟨_, heq⟩ | ⟨_, _, heq⟩ | ⟨_, _, _, _, _, heq⟩ |
    ⟨_, _, _, hto, ⟨_, heq⟩ | ⟨_, _, heq⟩⟩ := hup
  · rw [heq, hfirst]
  · rw [heq, hfirst]
  · rw [heq, hfirst]
  · rw [heq, List.flatMap_append, hfirst, Output.slices_of_commit hto.committed.outs]
    rfl
  · rw [heq, List.flatMap_append, hfirst, Output.slices_of_commit hto.committed.outs]
    rfl

/-- `on_receive_proposal` hands out its slice only, which is valid. -/
theorem onReceiveProposal_hands (hc : c.WellFormed P) {prop : Proposal H} {s : Slice H}
    (hs : .doBroadcastSlice s ∈ (c.onReceiveProposal P prop).outs) :
    s = prop.slice ∧ s.validate P.sha256Hex = true := by
  unfold onReceiveProposal at hs
  split at hs
  swap
  · cases hs
  rename_i hok
  have hwf := onReceiveSlice_wellFormed (P := P) hc prop.slice
  obtain hs | hs := Res.mem_bind hs
  · unfold onReceiveSlice at hs
    split at hs
    · split at hs
      · cases hs
      · cases hs
    · cases hs
  generalize (c.onReceiveSlice P prop.slice).core = u at hs hwf
  obtain hs | hs := Res.mem_bind hs
  · obtain heq := List.mem_singleton.mp hs
    obtain rfl := Output.doBroadcastSlice.inj heq
    exact ⟨rfl, hok.2⟩
  obtain hs | hs := Res.mem_bind hs
  · exfalso
    split at hs
    · cases hs
    · split at hs
      · rename_i hd
        exact update_hands hwf hd s hs
      · cases hs
  · exfalso
    unfold castVote at hs
    split at hs
    · cases hs
    · cases hs

omit [DecidableEq H] in
theorem OwnSlice.place {cmds : List UInt256} {i : Nat} {s : Slice H} {bnew : H}
    (hs : u.OwnSlice P cmds bnew i s) (hlt : i < 2 ^ 32) : s.place = i := by
  obtain ⟨shards, proofs, _, hproofs, proof, hproof, rfl⟩ := hs
  unfold MerkleTree.proofs at hproofs
  cases hb : MerkleTree.build P.sha256Hex (shards.length + 1) (shards.map P.sha256Hex) with
  | error f => simp [hb, Except.map] at hproofs
  | ok x =>
    simp only [hb, Except.map, Except.ok.injEq] at hproofs
    rw [← hproofs, List.getElem?_mapIdx] at hproof
    obtain ⟨data, _, rfl⟩ := Option.map_eq_some_iff.mp hproof
    change ((i : Int) % 2 ^ 32).toNat = i
    omega

/-- The rules with votes on slices of the block. -/
def backingRules (H Sig : Type) : Rules H Sig :=
  { Rules.any H Sig with vote := fun _ blk s => s.mBlkHash = blk }

/-- A vote that a call leads to comes after a slice of its block. -/
theorem Ends.backs {own : Option H} {r : Res H Sig} (h : Ends P (backingRules H Sig) c own r)
    (hc : c.WellFormed P) {last : ReplicaID} {v : Vote H Sig}
    (hv : .doVote last v ∈ r.tasks) : ∃ s, .doBroadcastSlice s ∈ r.outs ∧ s.mBlkHash = v.blkHash := by
  cases h with
  | breach _ _ _ _ => cases hv
  | fault _ _ => cases hv
  | commit _ _ _ _ => cases hv
  | @vote u outs extra prop hsteps hslice hrule hafter =>
    refine ⟨prop.slice, hslice, Eq.trans hrule ?_⟩
    obtain hv | hv := List.mem_append.mp hv
    · obtain ⟨o, _, heq⟩ := castVote_eq (hsteps.wellFormed hc) prop
      rw [heq] at hv
      simp only [List.mem_append, List.mem_cons, reduceCtorEq, false_or] at hv
      obtain hv | hv := hv
      · unfold finishTasks at hv
        split at hv
        · cases hv
        · obtain ⟨_, _, heq⟩ := List.mem_map.mp hv
          cases heq
      · split at hv
        · obtain ⟨rfl, rfl⟩ := Task.doVote.inj (List.mem_singleton.mp hv)
          rfl
        · cases hv
    · obtain ⟨_, rfl⟩ | ⟨_, _, _, _, props, rfl, _⟩ := hafter
      · cases hv
      · simp at hv

/-- `on_propose` hands out the slice of the proposer's own place. -/
theorem onPropose_hands (hc : c.WellFormed P) (hid : c.id < 2 ^ 32) {cmds : List UInt256}
    {parents : List H} {extra : Bytes} (hpar : parents.all c.delivered = true) {s : Slice H}
    (hs : .doBroadcastSlice s ∈ (c.onPropose P cmds parents extra).outs) :
    s.place = c.id ∧ s.validate P.sha256Hex = true := by
  generalize hbnew : P.hashBlock (c.proposedData P cmds parents extra) = bnew
  unfold Core.onPropose at hs
  split at hs
  · cases hs
  rename_i p₀ hp₀
  dsimp only at hs
  rw [hbnew] at hs
  obtain ⟨hno, _⟩ | ⟨c₁, hok, hgrow, hd⟩ := storeProposed_delivers hc hp₀ hbnew rfl
  · rw [hpar] at hno
    cases hno
  rw [hok] at hs
  obtain hs | hs := Res.mem_bind hs
  · cases hs
  dsimp only [Res.ok] at hs
  have hwf := update_wellFormed hgrow.wellFormed hd
  have hsame : (c₁.update P bnew).core.id = c.id :=
    (update_id hgrow.wellFormed hd).trans hgrow.quiet.id
  obtain hs | hs := Res.mem_bind hs
  · exact absurd hs (update_hands hgrow.wellFormed hd s)
  generalize (c₁.update P bnew).core = u at hs hwf hsame
  obtain ⟨f, _, heq⟩ | ⟨props, prop, _, _, _, hown, _, heq⟩ := sendProposal_cases (P := P) u cmds bnew
  · rw [heq] at hs
    cases hs
  · rw [heq] at hs
    obtain hs | hs := Res.mem_bind hs
    · obtain ⟨rfl, hvalid⟩ := onReceiveProposal_hands hwf hs
      rw [hsame] at hown
      exact ⟨hown.place hid, hvalid⟩
    · cases hs

/-- The proposal that a call takes in has a slice of its block, for the place of the replica. -/
def Tied (c : Core H Sig) (i : Call H Sig) : Prop :=
  ∀ prop, i = .onReceiveProposal prop →
    prop.slice.mBlkHash = prop.blk ∧ prop.slice.place = c.id

/-- Every call that a replica has checked hands out slices of its own place. -/
theorem call_hands (hc : c.WellFormed P) (hid : c.id < 2 ^ 32) {i : Call H Sig}
    (hasks : Replica.Asks P c i) (htied : c.Tied i) {s : Slice H}
    (hs : .doBroadcastSlice s ∈ (c.call P i).outs) :
    s.place = c.id ∧ s.validate P.sha256Hex = true := by
  obtain ⟨prop, rfl⟩ | ⟨cmds, parents, extra, rfl⟩ | ⟨ho, _⟩ := call_plain hc hasks
  · obtain ⟨rfl, hvalid⟩ := onReceiveProposal_hands hc hs
    exact ⟨(htied prop rfl).2, hvalid⟩
  · exact onPropose_hands hc hid hasks hs
  · obtain ho | ho := ho <;> simp [ho] at hs

/-- And a vote comes after a slice of its block. -/
theorem call_backs (hc : c.WellFormed P) {i : Call H Sig} (hasks : Replica.Asks P c i)
    (htied : c.Tied i) {last : ReplicaID} {v : Vote H Sig} (hv : .doVote last v ∈ (c.call P i).tasks) :
    ∃ s, .doBroadcastSlice s ∈ (c.call P i).outs ∧ s.mBlkHash = v.blkHash := by
  obtain ⟨prop, rfl⟩ | ⟨cmds, parents, extra, rfl⟩ | ⟨_, ht⟩ := call_plain hc hasks
  · have he : Ends P (backingRules H Sig) c none (c.onReceiveProposal P prop) :=
      onReceiveProposal_ends hc hasks.1 trivial (fun _ _ _ => trivial) fun _ => (htied prop rfl).1
    exact he.backs hc hv
  · have hends := onPropose_ends (R := backingRules H Sig) hc cmds parents extra rfl
      (fun _ => trivial) (fun _ _ _ => trivial) (fun _ _ _ => trivial) fun _ _ hown _ => hown.blkHash
    obtain ⟨hno, _⟩ | he := hends
    · have hpar : parents.all c.delivered = true := hasks
      rw [hpar] at hno
      cases hno
    · exact he.backs hc hv
  · obtain ht | ⟨_, ht⟩ := ht <;> simp [ht] at hv

theorem Steps.ofCore {R : Rules H Sig} {c c' : Core H Sig} {outs : List (Output H Sig)}
    (h : Steps (Move P R) c outs c') : outs.all Output.ofCore = true := by
  induction h with
  | nil => rfl
  | cons hm _ ih =>
    rw [List.all_append, hm.ofCore, ih]
    rfl

/-- The core leaves votes to the end of its calls. -/
theorem call_ofCore {c : Core H Sig} (hc : c.WellFormed P) {i : Call H Sig}
    (hasks : Replica.Asks P c i) : (c.call P i).outs.all Output.ofCore = true := by
  have hends {own : Option H} {r : Res H Sig} (h : Ends P (.any H Sig) c own r) :
      r.outs.all Output.ofCore = true := by
    cases h with
    | breach hsteps _ _ _ => exact hsteps.move.ofCore
    | fault hsteps _ => exact hsteps.ofCore
    | commit hsteps hto _ _ =>
      rw [List.all_append, hsteps.move.ofCore, Output.ofCore_of_commit hto.committed.outs]
      rfl
    | vote hsteps _ _ _ => exact hsteps.ofCore
  obtain ⟨prop, rfl⟩ | ⟨cmds, parents, extra, rfl⟩ | ⟨ho, _⟩ := call_plain hc hasks
  · exact hends (onReceiveProposal_ends_any hc prop)
  · obtain ⟨hno, _⟩ | he := onPropose_ends (R := .any H Sig) hc cmds parents extra rfl
      (fun _ => trivial) (fun _ _ _ => trivial) (fun _ _ _ => trivial) fun _ _ _ _ => trivial
    · have hpar : parents.all c.delivered = true := hasks
      rw [hpar] at hno
      cases hno
    · exact hends he
  · obtain ho | ho := ho <;> rw [ho] <;> rfl

end Core

namespace Output

variable [DecidableEq H]

/-- A vote for the block. -/
def votesFor (h : H) : Output H Sig → Bool
  | doVote _ v => decide (v.blkHash = h)
  | _ => false

/-- The slice of the block that is handed to `do_broadcast_slice`. -/
def sharesFor (h : H) : Output H Sig → Option (Slice H)
  | doBroadcastSlice s => if s.mBlkHash = h then some s else none
  | _ => none

end Output

namespace Replica

variable [DecidableEq H] {nd nd' : Replica H Sig}

/-- The slices of a block handed to `do_broadcast_slice` before the first vote for it. -/
def sharedBeforeVote (nd : Replica H Sig) (h : H) : List (Slice H) :=
  (nd.log.takeWhile fun o => !o.votesFor h).filterMap (Output.sharesFor h)

theorem mem_sharedBeforeVote {h : H} {s : Slice H} : s ∈ nd.sharedBeforeVote h ↔
    .doBroadcastSlice s ∈ nd.log.takeWhile (fun o => !o.votesFor h) ∧ s.mBlkHash = h := by
  rw [sharedBeforeVote, List.mem_filterMap]
  constructor
  · rintro ⟨o, ho, heq⟩
    cases o with
    | doBroadcastSlice s' =>
      simp only [Output.sharesFor, Option.ite_none_right_eq_some, Option.some.injEq] at heq
      obtain ⟨hh, rfl⟩ := heq
      exact ⟨ho, hh⟩
    | _ => cases heq
  · rintro ⟨ho, hh⟩
    exact ⟨_, ho, by rw [Output.sharesFor, if_pos hh]⟩

/-- What an event adds to the log: votes that were about to be sent, and valid slices for the place
of the replica. A vote that is about to be sent from now on comes after a slice of its block. -/
structure Shows (P : Primitives H Sig) (nd nd' : Replica H Sig) (new : List (Output H Sig)) : Prop where
  log : nd'.log = nd.log ++ new
  votes : ∀ last v, .doVote last v ∈ new → .doVote last v ∈ nd.tasks
  hands : ∀ s, .doBroadcastSlice s ∈ new → s.place = nd.core.id ∧ s.validate P.sha256Hex = true
  backs : ∀ last v, .doVote last v ∈ nd'.tasks → .doVote last v ∈ nd.tasks ∨
    ∃ s, .doBroadcastSlice s ∈ new ∧ s.mBlkHash = v.blkHash

theorem handle_shows (hc : nd.core.WellFormed P) (hid : nd.core.id < 2 ^ 32) {e : Event H Sig}
    (htied : ∀ i, e.call? = some i → nd.core.Tied i) (h : nd.handle P e = some nd') :
    ∃ new, Shows P nd nd' new := by
  obtain ⟨i, hmakes, hasks, outs, ord, rest, hrest, houts, rfl⟩ | ⟨ord, hrun⟩ | ⟨_, rfl⟩ :=
    handle_cases h
  · have hcall : nd.core.Tied i := by
      obtain ⟨hi, _⟩ | ⟨vote, rfl⟩ := hmakes
      · exact htied i hi
      · exact fun _ heq => nomatch heq
    refine ⟨outs ++ (nd.core.call P i).outs, by rw [absorb_log, List.append_assoc], ?_, ?_, ?_⟩
    · intro last v hv
      obtain hv | hv := List.mem_append.mp hv
      · obtain rfl | ⟨last', v', rfl, hmem⟩ := houts
        · cases hv
        · obtain ⟨rfl, rfl⟩ := Output.doVote.inj (List.mem_singleton.mp hv)
          exact hmem
      · cases List.all_eq_true.mp (Core.call_ofCore hc hasks) _ hv
    · intro s hs
      obtain hs | hs := List.mem_append.mp hs
      · obtain rfl | ⟨last', v', rfl, _⟩ := houts
        · cases hs
        · cases List.mem_singleton.mp hs
      · exact Core.call_hands hc hid hasks hcall hs
    · intro last v hv
      obtain hv | hv := List.mem_append.mp (absorb_tasks _ _ _ hv)
      · obtain ⟨s, hs, hblk⟩ := Core.call_backs hc hasks hcall hv
        exact Or.inr ⟨s, List.mem_append_right _ hs, hblk⟩
      · exact Or.inl (hrest hv)
  · obtain ⟨t, ht, hlog, htasks⟩ := runTask_sends hrun
    refine ⟨_, hlog, ?_, ?_, ?_⟩
    · intro last v hv
      cases t with
      | doVote last' v' =>
        obtain ⟨rfl, rfl⟩ := Output.doVote.inj (List.mem_singleton.mp hv)
        exact ht
      | doBroadcastProposalWithSlice props => cases List.mem_singleton.mp hv
      | _ => cases hv
    · intro s hs
      cases t with
      | doVote last' v' => cases List.mem_singleton.mp hs
      | doBroadcastProposalWithSlice props => cases List.mem_singleton.mp hs
      | _ => cases hs
    · intro last v hv
      obtain hv | hv := htasks _ hv
      · exact Or.inl hv
      · cases hv
  · exact ⟨[], (List.append_nil _).symm, nofun, nofun, fun _ _ hv => Or.inl hv⟩

/-- What a replica has handed out: slices for its own place, and one of its block before a vote. -/
structure Shares (P : Primitives H Sig) (nd : Replica H Sig) : Prop where
  hands : ∀ s, .doBroadcastSlice s ∈ nd.log →
    s.place = nd.core.id ∧ s.validate P.sha256Hex = true
  pending : ∀ last v, .doVote last v ∈ nd.tasks →
    ∃ s, .doBroadcastSlice s ∈ nd.log ∧ s.mBlkHash = v.blkHash
  voted : ∀ last v, .doVote last v ∈ nd.log → ∃ s, s ∈ nd.sharedBeforeVote v.blkHash

theorem Shares.shows (hs : nd.Shares P) {new : List (Output H Sig)} (h : Shows P nd nd' new)
    (hid : nd'.core.id = nd.core.id) : nd'.Shares P := by
  have hgrow {x : Output H Sig} (hx : x ∈ nd.log) : x ∈ nd'.log := by
    rw [h.log]
    exact List.mem_append_left _ hx
  refine ⟨fun s hmem => ?_, fun last v hv => ?_, fun last v hv => ?_⟩
  · rw [hid]
    rw [h.log, List.mem_append] at hmem
    obtain hmem | hmem := hmem
    · exact hs.hands s hmem
    · exact h.hands s hmem
  · obtain hv | ⟨s, hmem, hblk⟩ := h.backs last v hv
    · obtain ⟨s, hmem, hblk⟩ := hs.pending last v hv
      exact ⟨s, hgrow hmem, hblk⟩
    · rw [h.log]
      exact ⟨s, List.mem_append_right _ hmem, hblk⟩
  · -- before the first vote the whole log counts, and afterwards nothing is lost
    by_cases hfirst : ∀ o ∈ nd.log, (!o.votesFor v.blkHash) = true
    · have hslice : ∃ s, .doBroadcastSlice s ∈ nd.log ∧ s.mBlkHash = v.blkHash := by
        rw [h.log, List.mem_append] at hv
        obtain hv | hv := hv
        · have hno := hfirst _ hv
          simp [Output.votesFor] at hno
        · exact hs.pending last v (h.votes last v hv)
      obtain ⟨s, hmem, hblk⟩ := hslice
      refine ⟨s, mem_sharedBeforeVote.mpr ⟨?_, hblk⟩⟩
      rw [h.log, List.takeWhile_append_of_pos hfirst]
      exact List.mem_append_left _ hmem
    · push Not at hfirst
      obtain ⟨o, ho, hvote⟩ := hfirst
      obtain ⟨last', v', rfl, hblk⟩ : ∃ last' v', o = .doVote last' v' ∧ v'.blkHash = v.blkHash := by
        cases o with
        | doVote last' v' => exact ⟨last', v', rfl, by simpa [Output.votesFor] using hvote⟩
        | _ => exact absurd rfl hvote
      obtain ⟨s, hmem⟩ := hs.voted last' v' ho
      rw [hblk] at hmem
      obtain ⟨hmem, hs⟩ := mem_sharedBeforeVote.mp hmem
      refine ⟨s, mem_sharedBeforeVote.mpr ⟨?_, hs⟩⟩
      have hprefix : nd.log.takeWhile (fun o => !o.votesFor v.blkHash) =
          nd'.log.takeWhile fun o => !o.votesFor v.blkHash := by
        rw [h.log, List.takeWhile_append]
        split
        · rename_i hlen
          have hall : nd.log.takeWhile (fun o => !o.votesFor v.blkHash) = nd.log :=
            (List.takeWhile_prefix _).eq_of_length hlen
          exact absurd (List.takeWhile_eq_self_iff.mp hall _ ho) hvote
        · rfl
      rwa [← hprefix]

end Replica

/-- A proposal has a slice of its block, for the place of the replica that takes it in. -/
def Event.tied [DecidableEq H] : Event H Sig → Bool
  | .receiveProposal r _ _ prop =>
    decide (prop.slice.mBlkHash = prop.blk) && decide (prop.slice.place = r)
  | _ => true

theorem Event.tied_call [DecidableEq H] {e : Event H Sig} (h : e.tied = true) {c : Core H Sig}
    (hid : e.at_ = c.id) {i : Call H Sig} (hi : e.call? = some i) : c.Tied i := by
  rintro prop rfl
  cases e with
  | receiveProposal r src ord prop' =>
    simp only [tied, Bool.and_eq_true, decide_eq_true_eq] at h
    obtain rfl := Call.onReceiveProposal.inj (Option.some.inj hi)
    exact ⟨h.1, h.2.trans hid⟩
  | _ => cases hi

/-- In every run of a replica that takes in such proposals. -/
theorem Replica.Runs.shares [DecidableEq H] {nd : Replica H Sig} {dummy : QuorumCert H Sig}
    {replicas : List NetAddr} {listenAddr : NetAddr} {id : ReplicaID} (hlt : id < 2 ^ 32)
    (h : nd.Runs P dummy replicas listenAddr id fun _ e => e.tied = true ∧ e.at_ = id) :
    nd.core.WellFormed P ∧ nd.core.id = id ∧ nd.Shares P := by
  apply Transition.Reaches.invariant h
  · have hstart := Core.start_started P id dummy replicas listenAddr
    exact ⟨hstart.wellFormed, hstart.id, nofun, nofun, nofun⟩
  · rintro nd e nd' ⟨hwf, hid, hshares⟩ ⟨htied, hat⟩ hstep
    have hadv : nd.core.Advances P (fun _ => True) nd'.core :=
      handle_advances hwf (fun _ _ => trivial) hstep
    obtain ⟨new, hshows⟩ := handle_shows hwf (by rwa [hid])
      (fun i => Event.tied_call htied (hat.trans hid.symm)) hstep
    exact ⟨hadv.wellFormed, hadv.id.trans hid, hshares.shows hshows hadv.id⟩

/-- The signers of a certificate that follow the code. -/
def QuorumCert.correctSigners (D : Deployment) (qc : QuorumCert H Sig) : Finset ReplicaID :=
  (Finset.range D.n).filter fun r => D.Correct r ∧ r ∈ qc.signers.map Prod.fst

namespace Sys

variable [DecidableEq H] [DecidableEq Sig] {D : Deployment} {dummy : QuorumCert H Sig}
  {s : Sys H Sig} {qc : QuorumCert H Sig}

/-- The slices of a certified block that the correct signers have handed out before their votes. -/
def shared (D : Deployment) (s : Sys H Sig) (qc : QuorumCert H Sig) : List (Slice H) :=
  ((List.range D.n).filter fun r => decide (r ∈ qc.correctSigners D)).flatMap fun r =>
    (s.node r).sharedBeforeVote qc.objHash

/-- The shard indices of these slices. -/
def covered (D : Deployment) (s : Sys H Sig) (qc : QuorumCert H Sig) : Finset Nat :=
  ((s.shared D qc).map Slice.place).toFinset

/-- A certified block is available: its correct signers have handed out slices for
`m_threshold` indices, a correct replica can take these slices in, in any order, and has then the
block, whatever else it has taken in. -/
structure Available (P : Primitives H Sig) (D : Deployment) (s : Sys H Sig) (qc : QuorumCert H Sig) :
    Prop where
  covers : ∀ j, D.Correct j → (s.node j).core.sc.threshold ≤ (s.covered D qc).card
  taken : ∀ j, D.Correct j → ∀ sls ⊆ s.shared D qc,
    ((s.node j).core.onReceiveSlices P sls).exit = none
  rebuilt : ∀ j, D.Correct j → ∀ sls, s.shared D qc ⊆ sls →
    ((s.node j).core.onReceiveSlices P sls).exit = none →
      (((s.node j).core.onReceiveSlices P sls).core.sc.getBlock qc.objHash).1 = 0

omit [DecidableEq H] [DecidableEq Sig] in
theorem mem_shared [DecidableEq H] {sl : Slice H} : sl ∈ s.shared D qc ↔
    ∃ r ∈ qc.correctSigners D, sl ∈ (s.node r).sharedBeforeVote qc.objHash := by
  simp only [shared, List.mem_flatMap, List.mem_filter, List.mem_range, decide_eq_true_eq]
  constructor
  · rintro ⟨r, ⟨_, hr⟩, hsl⟩
    exact ⟨r, hr, hsl⟩
  · rintro ⟨r, hr, hsl⟩
    exact ⟨r, ⟨Finset.mem_range.mp (Finset.mem_filter.mp hr).1, hr⟩, hsl⟩

/-- A correct replica of a run of the network runs by itself. -/
theorem ReachableBy.runs {cond : Sys H Sig → Event H Sig → Prop} (h : s.ReachableBy P D dummy cond)
    {r : ReplicaID} {cond' : Replica H Sig → Event H Sig → Prop}
    (hcond : ∀ s e, cond s e → e.at_ = r → cond' (s.node r) e) :
    (s.node r).Runs P dummy D.replicas (D.listenAddr r) r cond' := by
  induction h with
  | refl => exact .refl
  | @tail s s' hreach hlast ih =>
    obtain ⟨e, hc, hstep⟩ := hlast
    have hreach : s.Reachable P D dummy := Transition.Reaches.mono (fun _ _ _ => trivial) hreach
    obtain ⟨hcorrect, nd, hnd, rfl⟩ := step_inv hstep
    obtain ⟨hid, hn, _, _⟩ := hreach.valid hcorrect
    by_cases hr : r = e.at_
    · subst hr
      have hnode : (s.set e.at_ nd).node e.at_ = nd := by simp [Sys.set]
      rw [hnode]
      exact ih.tail ⟨e, hcond s e hc rfl, handle_alone hnd hid hn⟩
    · have hnode : (s.set e.at_ nd).node r = s.node r := by simp [Sys.set, hr]
      rw [hnode]
      exact ih

/-- Each correct signer has handed out slices for its own index. -/
theorem covered_eq (h : s.ReachableBy P D dummy fun _ e => e.tied = true)
    (hsigned : ∀ r ∈ qc.correctSigners D, s.signed r qc.objHash = true) :
    s.covered D qc = qc.correctSigners D ∧
      ∀ sl ∈ s.shared D qc, sl.mBlkHash = qc.objHash ∧ sl.validate P.sha256Hex = true ∧
        sl.place ∈ qc.correctSigners D := by
  have hshares {r : ReplicaID} (hr : r ∈ qc.correctSigners D) :
      (s.node r).core.id = r ∧ (s.node r).Shares P := by
    have hlt : r < D.n := Finset.mem_range.mp (Finset.mem_filter.mp hr).1
    have hruns : (s.node r).Runs P dummy D.replicas (D.listenAddr r) r
        fun _ e => e.tied = true ∧ e.at_ = r := h.runs fun _ _ htied hat => ⟨htied, hat⟩
    exact (hruns.shares (hlt.trans D.bounds.2)).2
  have hplace {sl : Slice H} (hsl : sl ∈ s.shared D qc) : ∃ r ∈ qc.correctSigners D,
      sl ∈ (s.node r).sharedBeforeVote qc.objHash ∧ sl.mBlkHash = qc.objHash ∧
        sl.validate P.sha256Hex = true ∧ sl.place = r := by
    obtain ⟨r, hr, hmem⟩ := mem_shared.mp hsl
    obtain ⟨hid, hs⟩ := hshares hr
    obtain ⟨hbefore, hblk⟩ := Replica.mem_sharedBeforeVote.mp hmem
    obtain ⟨hpl, hvalid⟩ := hs.hands sl ((List.takeWhile_prefix _).subset hbefore)
    exact ⟨r, hr, hmem, hblk, hvalid, hpl.trans hid⟩
  constructor
  · ext r
    rw [covered, List.mem_toFinset, List.mem_map]
    constructor
    · rintro ⟨sl, hsl, rfl⟩
      obtain ⟨r, hr, _, _, _, hpl⟩ := hplace hsl
      rwa [hpl]
    · intro hr
      obtain ⟨hid, hs⟩ := hshares hr
      obtain ⟨o, ho, hvote⟩ := List.any_eq_true.mp (hsigned r hr)
      obtain ⟨last, v, rfl, hblk⟩ : ∃ last v, o = .doVote last v ∧ v.blkHash = qc.objHash := by
        cases o with
        | doVote last v => exact ⟨last, v, rfl, of_decide_eq_true hvote⟩
        | _ => cases hvote
      obtain ⟨sl, hsl⟩ := hs.voted last v ho
      rw [hblk] at hsl
      have hmem := mem_shared.mpr ⟨r, hr, hsl⟩
      obtain ⟨hbefore, _⟩ := Replica.mem_sharedBeforeVote.mp hsl
      obtain ⟨hpl, _⟩ := hs.hands sl ((List.takeWhile_prefix _).subset hbefore)
      exact ⟨sl, hmem, hpl.trans hid⟩
  · intro sl hsl
    obtain ⟨r, hr, _, hblk, hvalid, hpl⟩ := hplace hsl
    exact ⟨hblk, hvalid, by rwa [hpl]⟩

/-- Certified blocks are available: let each proposal that a correct replica takes in have a slice of
its block for the place of that replica. In every state reached, a block whose certificate a correct
replica verifies is available exactly when `m_threshold` of the signers follow the code. Of `n - f`
signers only `n - 2f` need to. -/
theorem certified_available (h : s.ReachableBy P D dummy fun _ e => e.tied = true) {i : ReplicaID}
    (hi : D.Correct i) (hverify : qc.verify P (s.node i).core.config = some true)
    (hunforged : s.qcUnforged P D qc = true) :
    s.Available P D qc ↔ (s.node i).core.sc.threshold ≤ (qc.correctSigners D).card := by
  have hreach : s.Reachable P D dummy := Transition.Reaches.mono (fun _ _ _ => trivial) h
  have hsigned (r : ReplicaID) (hr : r ∈ qc.correctSigners D) : s.signed r qc.objHash = true := by
    obtain ⟨_, hcorrect, hmem⟩ := Finset.mem_filter.mp hr
    obtain ⟨⟨rid, sig⟩, hentry, rfl⟩ := List.mem_map.mp hmem
    have hsig : P.verifySig rid qc.objHash sig = true := by
      unfold QuorumCert.verify at hverify
      split at hverify
      · cases hverify
      · exact (QuorumCert.checkSigs_all hverify _ hentry).2
    have hun := List.all_eq_true.mp hunforged _ hentry
    simpa [unforged, hsig, hcorrect] using hun
  have hstocked {j : ReplicaID} : (s.node j).core.sc.Stocked D.n := by
    have hruns : (s.node j).Runs P dummy D.replicas (D.listenAddr j) j fun _ _ => True :=
      h.runs fun _ _ _ _ => trivial
    exact hruns.lasting (ShardsContainer.Stocked.lasting _) (ShardsContainer.Stocked.start _)
  obtain ⟨hcovered, hshared⟩ := covered_eq h hsigned
  rw [hstocked.threshold]
  constructor
  · intro havail
    have hle := havail.covers i hi
    rwa [hstocked.threshold, hcovered] at hle
  · intro henough
    refine ⟨fun j _ => ?_, fun j _ sls hsub => ?_, fun j _ sls hsub hexit => ?_⟩
    · rwa [hstocked.threshold, hcovered]
    · apply Core.onReceiveSlices_returns hstocked
      intro sl hsl
      obtain ⟨_, _, hplace⟩ := hshared sl (hsub hsl)
      exact Finset.mem_range.mp (Finset.mem_filter.mp hplace).1
    · have hall (r : Nat) (hr : r ∈ qc.correctSigners D) : r ∈ (∅ : Finset Nat) ∨
          ∃ sl ∈ sls, sl.mBlkHash = qc.objHash ∧ sl.validate P.sha256Hex = true ∧ sl.place = r := by
        rw [← hcovered, covered, List.mem_toFinset, List.mem_map] at hr
        obtain ⟨sl, hsl, rfl⟩ := hr
        obtain ⟨hblk, hvalid, _⟩ := hshared sl hsl
        exact Or.inr ⟨sl, hsub hsl, hblk, hvalid, rfl⟩
      obtain ⟨hst, hcov⟩ := Core.onReceiveSlices_covers hstocked (hstocked.counted _) hexit hall
      have hpos := D.bounds.1
      apply hcov.getBlock
      · rw [hst.threshold]
        omega
      · rwa [hst.threshold]

end Sys

namespace Concrete

/-- Replica 3 gives block 1 and a slice of it to each of some replicas, which vote for the block. -/
def shareWith (rs : List ReplicaID) : List (Event Nat Signature) :=
  rs.flatMap fun r => adopt (paidBlocks []) 3 r 1 ++
    ((commandProposals 3 1 [command 1])[r]?.toList.map fun prop => .receiveProposal r 3 [] prop) ++
      List.replicate 3 (.runTask r [] false)

/-- What is seen of a certificate: that replica 0 verifies it and it is not forged, the number of
its signers that follow the code and of the indices that they cover, `m_threshold`, and what
`get_block` returns at replica 2 when it has taken in what they have handed out. -/
def seenAvailable (qc : QuorumCert Nat Signature) (s : Sys Nat Signature) :
    (Option Bool × Bool) × (Nat × Nat × Nat) × Int :=
  ((qc.verify (paid []) (s.node 0).core.config, s.qcUnforged (paid []) fourReplicas qc),
    ((qc.correctSigners fourReplicas).card, (s.covered fourReplicas qc).card,
      (s.node 0).core.sc.threshold),
    (((s.node 2).core.onReceiveSlices (paid []) (s.shared fourReplicas qc)).core.sc.getBlock 1).1)

set_option maxRecDepth 100000 in
theorem shared_run : (Transition.runBy (Sys.step (paid []) fourReplicas) (fun _ e => e.tied = true)
    (Sys.init (paid []) fourReplicas noCert) (shareWith [0, 1, 2])).map
      (seenAvailable (cert [0, 1, 2] 1)) = some ((some true, true), (3, 3, 3), 0) := by
  decide +kernel

/-- Three replicas that follow the code have signed the block. -/
theorem certified_available_three : ∃ s : Sys Nat Signature,
    s.Available (paid []) fourReplicas (cert [0, 1, 2] 1) := by
  obtain ⟨s, hreach, hseen⟩ := Transition.runBy_map_reaches shared_run
  simp only [seenAvailable, Prod.mk.injEq] at hseen
  obtain ⟨⟨hverify, hunforged⟩, ⟨hcorrect, _, hthreshold⟩, _⟩ := hseen
  exact ⟨s, (Sys.certified_available hreach (i := 0) (by decide) hverify hunforged).mpr
    (hthreshold.trans hcorrect.symm).le⟩

set_option maxRecDepth 100000 in
theorem withheld_run : (Transition.runBy (Sys.step (paid []) fourReplicas) (fun _ e => e.tied = true)
    (Sys.init (paid []) fourReplicas noCert) (shareWith [0, 1])).map
      (seenAvailable (cert [0, 1, 3] 1)) = some ((some true, true), (2, 2, 3), -2) := by
  decide +kernel

/-- Replica 3 proposes to replicas 0 and 1 only, and signs its block itself. The block is certified,
its signers that follow the code cover two indices where `m_threshold` is three, and replica 2
cannot have the block from what they have handed out. -/
theorem certified_unavailable : ∃ s : Sys Nat Signature,
    s.ReachableBy (paid []) fourReplicas noCert (fun _ e => e.tied = true) ∧
    (cert [0, 1, 3] 1).verify (paid []) (s.node 0).core.config = some true ∧
    s.qcUnforged (paid []) fourReplicas (cert [0, 1, 3] 1) = true ∧
    (((s.node 2).core.onReceiveSlices (paid [])
      (s.shared fourReplicas (cert [0, 1, 3] 1))).core.sc.getBlock 1).1 = -2 ∧
    ¬s.Available (paid []) fourReplicas (cert [0, 1, 3] 1) := by
  obtain ⟨s, hreach, hseen⟩ := Transition.runBy_map_reaches withheld_run
  simp only [seenAvailable, Prod.mk.injEq] at hseen
  obtain ⟨⟨hverify, hunforged⟩, ⟨_, hcovered, hthreshold⟩, hget⟩ := hseen
  refine ⟨s, hreach, hverify, hunforged, hget, fun havail => ?_⟩
  have hle := havail.covers 0 (by decide)
  rw [hcovered, hthreshold] at hle
  omega

end Concrete
end LibHotStuff
