import LibHotStuff.Proofs.Delivered
import LibHotStuff.Proofs.Finality
import LibHotStuff.Proofs.MerkleTree
import LibHotStuff.Proofs.RseRoundTrip
import LibHotStuff.Proofs.VotesMatch

namespace LibHotStuff

variable {H Sig : Type} {P : Primitives H Sig}

namespace RSE

theorem encode_length {leo : Leopard} {r : RSE} {input : Bytes} {S : List Bytes}
    (h : r.encode leo input = .ok (0, S)) : S.length = r.originalCount + r.recoveryCount := by
  obtain ⟨s, work, _, _, _, _, hwork, rfl⟩ := encode_ok h
  rw [List.length_append, originalData_length, List.length_take, Nat.min_eq_left hwork]

end RSE

namespace Slice

/-- The position at which `insert_shard` puts a slice. -/
def place (s : Slice H) : Nat := (s.mIndex % 2 ^ 32).toNat

theorem place_eq {s : Slice H} (hdec : s.decodable = true) (hlt : s.place < 2 ^ 31) :
    s.mIndex = s.place := by
  simp only [decodable, Bool.and_eq_true, decide_eq_true_eq] at hdec
  unfold place at hlt ⊢
  omega

/-- A slice has the root hash of the tree over some shards, a branch of its height, and hashes no
string that collides with one that the construction of the tree hashes. -/
def fromTree (P : Primitives H Sig) (shards : List Bytes) (s : Slice H) : Bool :=
  match MerkleTree.build P.sha256Hex (shards.length + 1) (shards.map P.sha256Hex) with
  | .error _ => false
  | .ok (levels, root) =>
    decide (s.mRootHash = root) && decide (s.mBranch.length = levels.length) &&
      decide (NoCollision P.sha256Hex (s.hashed P.sha256Hex) (MerkleTree.hashed shards levels))

theorem fromTree_data {shards : List Bytes} {s : Slice H} (hdec : s.decodable = true)
    (hvalid : s.validate P.sha256Hex = true) (hfrom : s.fromTree P shards = true)
    (hplace : s.place < shards.length) (hsize : shards.length ≤ 2 ^ 16) :
    shards[s.place]? = some s.mData := by
  unfold fromTree at hfrom
  split at hfrom
  · cases hfrom
  · rename_i levels root hbuild
    simp only [Bool.and_eq_true, decide_eq_true_eq] at hfrom
    obtain ⟨⟨hroot, hbranch⟩, hfree⟩ := hfrom
    apply MerkleTree.validate_binds P.sha256Hex_length hbuild hvalid hroot hbranch hfree hplace
    apply place_eq hdec
    omega

end Slice

namespace ShardsContainer

/-- What is stored for a block are shards of a list, each at its place. -/
def Binds (sc : ShardsContainer H) (h : H) (shards : List Bytes) : Prop :=
  ∀ i < shards.length, sc.shardAt h i = [] ∨ shards[i]? = some (sc.shardAt h i)

variable {sc sc' : ShardsContainer H} {h : H} {shards : List Bytes}

/-- Entries are kept or removed. -/
def Shrinks (sc sc' : ShardsContainer H) : Prop :=
  ∀ x, sc'.shards x = sc.shards x ∨ sc'.shards x = none

theorem Shrinks.of_eq (heq : sc' = sc) : sc.Shrinks sc' := by
  intro x
  rw [heq]
  exact Or.inl rfl

theorem Binds.shrinks (hb : sc.Binds h shards) (hs : sc.Shrinks sc') : sc'.Binds h shards := by
  intro i hi
  obtain hx | hx := hs h
  · simpa only [shardAt, hx] using hb i hi
  · simp [shardAt, hx]

/-- A shard is put at an empty place only. -/
theorem Binds.insertShard [DecidableEq H] (hb : sc.Binds h shards) {x : H} {idx : Nat} {data : Bytes}
    {rc : Int} (hok : sc.insertShard x idx data = .ok (rc, sc'))
    (hdata : x = h → idx < shards.length → sc.shardAt h idx = [] → shards[idx]? = some data) :
    sc'.Binds h shards := by
  obtain he | ⟨_, _, heq, _, _, hat⟩ := insertShard_cases sc x idx data
  · rw [he] at hok
    cases hok
  · rw [heq] at hok
    cases hok
    intro i hi
    rw [hat]
    split
    · rename_i hput
      obtain ⟨hx, hidx, hempty⟩ := hput
      rw [hidx] at hi ⊢
      right
      apply hdata hx.symm hi
      rwa [hx]
    · exact hb i hi

end ShardsContainer

variable [DecidableEq H]

namespace Core

variable {c : Core H Sig} {h : H} {shards : List Bytes}

/-- What `on_propose` makes: a block, and the vector that `RSE::encode` fills. -/
structure Encodes (P : Primitives H Sig) (c : Core H Sig) (cmds : List UInt256) (parents : List H)
    (extra : Bytes) (h : H) (shards : List Bytes) : Prop where
  built : P.hashBlock (c.proposedData P cmds parents extra) = h
  encoded : c.rse.encode P.leopard (encodeInput cmds) = .ok (0, shards)

/-- A slice of the block that would be put at an empty place, once it passes its Merkle proof. -/
def fills (P : Primitives H Sig) (c : Core H Sig) (h : H) (shards : List Bytes) (s : Slice H) :
    Bool :=
  decide (s.mBlkHash = h) && s.validate P.sha256Hex && decide (s.place < shards.length) &&
    decide (c.sc.shardAt h s.place = [])

theorem onReceiveSlice_binds (hb : c.sc.Binds h shards) {s : Slice H}
    (hs : c.fills P h shards s = true → shards[s.place]? = some s.mData) :
    (c.onReceiveSlice P s).core.sc.Binds h shards := by
  obtain heq | heq | ⟨hvalid, rc, sc, hok, heq⟩ := onReceiveSlice_eq (P := P) c s
  · rw [heq]
    exact hb
  · rw [heq]
    exact hb
  · rw [heq]
    apply hb.insertShard hok
    intro hx hlt hempty
    apply hs
    simp only [fills, Bool.and_eq_true, decide_eq_true_eq]
    exact ⟨⟨⟨hx, hvalid⟩, hlt⟩, hempty⟩

/-- `update` only takes shards out. -/
theorem update_shrinks (hc : c.WellFormed P) {nblk : H} (hd : c.delivered nblk = true) :
    c.sc.Shrinks (c.update P nblk).core.sc ∧ (c.update P nblk).core.rse = c.rse := by
  obtain ⟨c', outs, hprep, hup⟩ := update_steps hc hd
  have hsc : c'.sc = c.sc := by rw [hprep.rest]
  have hrse : c'.rse = c.rse := by rw [hprep.rest]
  have hcom {b : H} {r : Res H Sig} {done : List H} (hto : c'.CommitsTo P nblk b r done) :
      c.sc.Shrinks r.core.sc ∧ r.core.rse = c.rse := by
    refine ⟨fun x => ?_, hto.committed.same.rse.trans hrse⟩
    obtain hx | ⟨_, hx⟩ := hto.committed.shards x
    · rw [hx, hsc]
      exact Or.inl rfl
    · exact Or.inr hx
  obtain ⟨_, heq⟩ | ⟨_, _, heq⟩ | ⟨_, _, _, _, _, heq⟩ |
    ⟨b, r, done, hto, ⟨_, heq⟩ | ⟨_, _, heq⟩⟩ := hup
  · rw [heq]
    exact ⟨.of_eq hsc, hrse⟩
  · rw [heq]
    exact ⟨.of_eq hsc, hrse⟩
  · rw [heq]
    exact ⟨.of_eq hsc, hrse⟩
  · have hr := hcom hto
    rw [heq]
    exact hr
  · have hr := hcom hto
    rw [heq]
    exact hr

theorem update_wellFormed (hc : c.WellFormed P) {nblk : H} (hd : c.delivered nblk = true) :
    (c.update P nblk).core.WellFormed P := by
  obtain ⟨c', outs, hprep, hup⟩ := update_steps hc hd
  have hc' := hprep.wellFormed hc
  obtain ⟨_, heq⟩ | ⟨_, _, heq⟩ | ⟨_, _, _, _, _, heq⟩ |
    ⟨b, r, done, hto, ⟨hexit, heq⟩ | ⟨_, _, heq⟩⟩ := hup
  · rw [heq]
    exact hc'
  · rw [heq]
    exact hc'
  · rw [heq]
    exact hc'
  · have hmove : Move P (.any H Sig) c' r.outs { r.core with bExec := b } :=
      .commit hto trivial hexit
    rw [heq]
    exact hmove.wellFormed hc'
  · have hwf := hto.committed.wellFormed hc' (hto.queue_delivered hc').2
    rw [heq]
    exact hwf

theorem castVote_sc (c : Core H Sig) (prop : Proposal H) :
    (c.castVote P prop).core.sc = c.sc := by
  obtain ⟨v, hv⟩ := castVote_core (P := P) c prop
  rw [hv]

omit [DecidableEq H] in
theorem bind_binds {r : Res H Sig} {k : Core H Sig → Res H Sig} (hr : r.core.sc.Binds h shards)
    (hk : (k r.core).core.sc.Binds h shards) : (r.bind k).core.sc.Binds h shards := by
  cases hexit : r.exit with
  | some f =>
    rw [Res.bind_some hexit]
    exact hr
  | none =>
    rw [Res.bind_none hexit]
    exact hk

theorem onReceiveSlice_wellFormed (hc : c.WellFormed P) (s : Slice H) :
    (c.onReceiveSlice P s).core.WellFormed P := by
  obtain heq | heq | ⟨_, _, sc, _, heq⟩ := onReceiveSlice_eq (P := P) c s
  · rw [heq]
    exact hc
  · rw [heq]
    exact hc
  · rw [heq]
    exact hc.with_shards sc

theorem onReceiveProposal_binds (hc : c.WellFormed P) (hb : c.sc.Binds h shards) {prop : Proposal H}
    (hs : prop.sHash = P.hashSlice prop.slice → c.fills P h shards prop.slice = true →
      shards[prop.slice.place]? = some prop.slice.mData) :
    (c.onReceiveProposal P prop).core.sc.Binds h shards := by
  unfold Core.onReceiveProposal
  split
  · rename_i hok
    have hslice := onReceiveSlice_binds hb (hs hok.1)
    have hwf := onReceiveSlice_wellFormed hc prop.slice
    apply bind_binds hslice
    generalize (c.onReceiveSlice P prop.slice).core = u at hslice hwf
    apply bind_binds hslice
    apply bind_binds
    · split
      · exact hslice
      · split
        · rename_i hd
          exact hslice.shrinks (update_shrinks hwf hd).1
        · exact hslice
    · rw [castVote_sc]
      split
      · exact hslice
      · split
        · rename_i hd
          exact hslice.shrinks (update_shrinks hwf hd).1
        · exact hslice
  · exact hb

omit [DecidableEq H] in
theorem OwnSlice.blkHash {u : Core H Sig} {cmds : List UInt256} {i : Nat} {s : Slice H} {bnew : H}
    (hs : u.OwnSlice P cmds bnew i s) : s.mBlkHash = bnew := by
  obtain ⟨_, _, _, _, _, _, rfl⟩ := hs
  rfl

omit [DecidableEq H] in
/-- The slices that `on_propose` makes are those of the shards. -/
theorem OwnSlice.data {u : Core H Sig} {cmds : List UInt256} {i : Nat} {s : Slice H} {bnew : H}
    (hs : u.OwnSlice P cmds bnew i s)
    (henc : u.rse.encode P.leopard (encodeInput cmds) = .ok (0, shards))
    (hsize : shards.length ≤ 2 ^ 16) : shards[s.place]? = some s.mData := by
  obtain ⟨shards', proofs, henc', hproofs, proof, hproof, rfl⟩ := hs
  rw [henc] at henc'
  obtain rfl : shards = shards' := by
    simp only [Except.ok.injEq, Prod.mk.injEq, true_and] at henc'
    exact henc'
  unfold MerkleTree.proofs at hproofs
  cases hb : MerkleTree.build P.sha256Hex (shards.length + 1) (shards.map P.sha256Hex) with
  | error f => simp [hb, Except.map] at hproofs
  | ok x =>
    simp only [hb, Except.map, Except.ok.injEq] at hproofs
    rw [← hproofs, List.getElem?_mapIdx] at hproof
    obtain ⟨data, hdata, rfl⟩ := Option.map_eq_some_iff.mp hproof
    have hlt := (List.getElem?_eq_some_iff.mp hdata).1
    have hplace : (((i : Int) % 2 ^ 32).toNat) = i := by omega
    change shards[((i : Int) % 2 ^ 32).toNat]? = some data
    rw [hplace, hdata]

theorem onPropose_binds (hc : c.WellFormed P) (hb : c.sc.Binds h shards) {cmds : List UInt256}
    {parents : List H} {extra : Bytes} (hpar : parents.all c.delivered = true)
    (henc : P.hashBlock (c.proposedData P cmds parents extra) = h →
      c.rse.encode P.leopard (encodeInput cmds) = .ok (0, shards))
    (hsize : shards.length ≤ 2 ^ 16) :
    (c.onPropose P cmds parents extra).core.sc.Binds h shards := by
  generalize hbnew : P.hashBlock (c.proposedData P cmds parents extra) = bnew at henc
  unfold Core.onPropose
  split
  · exact hb
  rename_i p₀ hp₀
  dsimp only
  rw [hbnew]
  obtain ⟨hno, _⟩ | ⟨c₁, hok, hgrow, hd⟩ := storeProposed_delivers hc hp₀ hbnew rfl
  · rw [hpar] at hno
    cases hno
  rw [hok]
  have hb₁ : c₁.sc.Binds h shards := hb.shrinks (.of_eq hgrow.quiet.sc)
  obtain ⟨hshrinks, hrse⟩ := update_shrinks hgrow.wellFormed hd
  have hwf := update_wellFormed hgrow.wellFormed hd
  have hbu := hb₁.shrinks hshrinks
  apply bind_binds hb₁
  apply bind_binds hbu
  generalize (c₁.update P bnew).core = u at *
  obtain ⟨f, _, heq⟩ | ⟨props, prop, _, _, _, hown, _, heq⟩ := sendProposal_cases (P := P) u cmds bnew
  · rw [heq]
    exact hbu
  · have hrecv : (u.onReceiveProposal P prop).core.sc.Binds h shards := by
      apply onReceiveProposal_binds hwf hbu
      intro _ hfills
      simp only [fills, Bool.and_eq_true, decide_eq_true_eq] at hfills
      have hblk : bnew = h := hown.blkHash.symm.trans hfills.1.1.1
      apply hown.data _ hsize
      rw [hrse, hgrow.quiet.rse]
      exact henc hblk
    rw [heq]
    exact bind_binds hrecv hrecv

end Core
namespace Replica

variable {nd nd' : Replica H Sig} {h : H} {shards : List Bytes}

/-- The slice that an event hands to `on_receive_slice`. -/
def sliceIn (P : Primitives H Sig) : Event H Sig → Option (Slice H)
  | .receiveProposal _ _ _ prop =>
    if prop.sHash = P.hashSlice prop.slice then some prop.slice else none
  | .receiveSlice _ _ hash slice => if hash = P.hashSlice slice then some slice else none
  | _ => none

/-- A slice that fills an empty place of the block comes from the tree over the shards. -/
def fillsFromTree (P : Primitives H Sig) (h : H) (shards : List Bytes) (nd : Replica H Sig)
    (e : Event H Sig) : Bool :=
  (sliceIn P e).all fun s => !nd.core.fills P h shards s || s.fromTree P shards

theorem filled_data {e : Event H Sig} (hcond : nd.fillsFromTree P h shards e = true)
    (hsize : shards.length ≤ 2 ^ 16) {s : Slice H} (hs : sliceIn P e = some s)
    (hdec : s.decodable = true) (hfills : nd.core.fills P h shards s = true) :
    shards[s.place]? = some s.mData := by
  simp only [fillsFromTree, hs, Option.all_some, hfills, Bool.not_true, Bool.false_or] at hcond
  simp only [Core.fills, Bool.and_eq_true, decide_eq_true_eq] at hfills
  exact Slice.fromTree_data hdec hfills.1.1.2 hcond hfills.1.2 hsize

theorem onReceiveVote_sc (hc : nd.core.WellFormed P) (vote : Vote H Sig) :
    (nd.core.onReceiveVote vote).core.sc = nd.core.sc := by
  rw [(Core.onReceiveVote_rest hc vote).1]

/-- No event puts anything but the shards of a block at its places. -/
theorem handle_binds (hc : nd.core.WellFormed P) (hb : nd.core.sc.Binds h shards)
    (henc : ∀ cmds parents extra, P.hashBlock (nd.core.proposedData P cmds parents extra) = h →
      nd.core.rse.encode P.leopard (Core.encodeInput cmds) = .ok (0, shards))
    (hsize : shards.length ≤ 2 ^ 16) {e : Event H Sig}
    (hcond : nd.fillsFromTree P h shards e = true) (hstep : nd.handle P e = some nd') :
    nd'.core.sc.Binds h shards := by
  cases e with
  | fetch r src data =>
    simp only [Replica.handle, Option.ite_none_right_eq_some, Option.some.injEq] at hstep
    obtain ⟨_, rfl⟩ := hstep
    exact hb.shrinks (.of_eq (Core.addBlk_grows hc data).1.quiet.sc)
  | deliver r blk =>
    simp only [Replica.handle, Option.ite_none_right_eq_some, Bool.and_eq_true, Option.some.injEq]
      at hstep
    obtain ⟨⟨_, hd⟩, rfl⟩ := hstep
    rw [absorb_core]
    exact hb.shrinks (.of_eq (Core.deliver_grows hc hd).1.quiet.sc)
  | receiveProposal r src ord prop =>
    simp only [Replica.handle, Option.ite_none_right_eq_some, Bool.and_eq_true, Option.some.injEq]
      at hstep
    obtain ⟨⟨⟨_, hdec⟩, _⟩, rfl⟩ := hstep
    rw [absorb_core]
    apply Core.onReceiveProposal_binds hc hb
    intro hhash
    exact filled_data hcond hsize (by rw [sliceIn, if_pos hhash]) hdec
  | receiveVote r ord vote =>
    simp only [Replica.handle, Option.ite_none_right_eq_some, Option.some.injEq] at hstep
    obtain ⟨_, rfl⟩ := hstep
    rw [absorb_core, onReceiveVote_sc hc]
    exact hb
  | receiveSlice r src hash slice =>
    simp only [Replica.handle, Option.ite_none_right_eq_some, Bool.and_eq_true] at hstep
    obtain ⟨⟨_, hdec⟩, hstep⟩ := hstep
    split at hstep
    · rename_i hhash
      obtain rfl := Option.some.inj hstep
      rw [absorb_core]
      apply Core.onReceiveSlice_binds hb
      exact filled_data hcond hsize (by rw [sliceIn, if_pos hhash]) hdec
    · obtain rfl := Option.some.inj hstep
      exact hb
  | propose r ord cmds parents extra =>
    simp only [Replica.handle, Option.ite_none_right_eq_some, Bool.and_eq_true, Option.some.injEq]
      at hstep
    obtain ⟨⟨_, hpar⟩, rfl⟩ := hstep
    rw [absorb_core]
    exact Core.onPropose_binds hc hb hpar (henc cmds parents extra) hsize
  | asyncQcFinish r blk =>
    simp only [Replica.handle, Option.ite_none_right_eq_some, Option.some.injEq] at hstep
    obtain ⟨_, rfl⟩ := hstep
    exact hb
  | runTask r ord toSelf =>
    simp only [Replica.handle] at hstep
    split at hstep
    · cases hstep
    have hquiet (hrun : nd.runTask ord false = some nd') : nd'.core.sc.Binds h shards := by
      rw [runTask_core hrun]
      exact hb
    cases toSelf with
    | false => exact hquiet hstep
    | true =>
      obtain hrun | ⟨last, vote, rest, htasks, rfl⟩ := Replica.runTask_self hstep
      · exact hquiet hrun
      · rw [absorb_core]
        change (nd.core.onReceiveVote vote).core.sc.Binds h shards
        rw [onReceiveVote_sc hc]
        exact hb

end Replica

namespace Core

variable {c c' : Core H Sig} {cmds : List UInt256} {parents : List H} {extra : Bytes} {h : H}
  {shards : List Bytes}

omit [DecidableEq H] in
/-- Who builds the same block encodes the same commands. -/
theorem Encodes.again (henc : c.Encodes P cmds parents extra h shards) (hrse : c'.rse = c.rse)
    {cmds' : List UInt256} {parents' : List H} {extra' : Bytes}
    (hbuilt : P.hashBlock (c'.proposedData P cmds' parents' extra') = h) :
    c'.rse.encode P.leopard (encodeInput cmds') = .ok (0, shards) := by
  have hdata := P.hashBlock_injective (hbuilt.trans henc.built.symm)
  have hcmds : [P.hashCommands cmds'] = [P.hashCommands cmds] := congrArg BlockData.cmds hdata
  have heq : cmds' = cmds := P.hashCommands_injective (List.cons.inj hcmds).1
  rw [heq, hrse]
  exact henc.encoded

end Core

namespace Sys

variable [DecidableEq Sig] {D : Deployment} {dummy : QuorumCert H Sig} {s s₀ : Sys H Sig}

theorem Reachable.valid (hs : s.Reachable P D dummy) {r : ReplicaID} (hr : D.Correct r) :
    (s.node r).core.id = r ∧ (s.node r).core.config.nreplicas = D.n ∧
      (s.node r).core.rse = RSE.setParams D.n ∧ (s.node r).core.WellFormed P := by
  obtain ⟨w, hsim⟩ := hs.refined
  have hv := hsim.reached.valid hr
  rw [← (hsim.node r hr).core]
  exact ⟨hv.id, hv.nreplicas, hv.rse, hv.wellFormed⟩

/-- Slices bind to their block: let a correct replica build a block in `on_propose` and encode its
commands into some shards. In every run in which each slice that fills an empty place of the block
comes from the Merkle tree over these shards, whatever faulty replicas send, a correct replica
stores at a place of the block nothing or the shard of that place. -/
theorem slice_binding {r₀ : ReplicaID} (hs₀ : s₀.Reachable P D dummy) (hr₀ : D.Correct r₀)
    {cmds : List UInt256} {parents : List H} {extra : Bytes} {h : H} {shards : List Bytes}
    (hbuilt : (s₀.node r₀).core.Encodes P cmds parents extra h shards)
    (hs : s.ReachableBy P D dummy fun s e => (s.node e.at_).fillsFromTree P h shards e = true)
    {r : ReplicaID} (hr : D.Correct r) {i : Nat} (hi : i < D.n) :
    (s.node r).core.sc.shardAt h i = [] ∨
      shards[i]? = some ((s.node r).core.sc.shardAt h i) := by
  obtain ⟨_, _, hrse₀, _⟩ := hs₀.valid hr₀
  have hlen : shards.length = D.n := by
    have hn := RSE.encode_length hbuilt.encoded
    have hfaulty : (D.n - 1) / 3 ≤ D.n := by omega
    simp only [hrse₀, RSE.setParams] at hn
    rw [hn, Nat.sub_add_cancel hfaulty]
  have hinv : s.Reachable P D dummy ∧
      ∀ r, D.Correct r → (s.node r).core.sc.Binds h shards := by
    apply Transition.Reaches.invariant hs
    · refine ⟨.refl, fun r _ i _ => Or.inl ?_⟩
      have hsc := (Core.start_started P r dummy D.replicas (D.listenAddr r)).sc
      change ((Core.new P r dummy).start D.replicas (D.listenAddr r)).sc.shardAt h i = []
      rw [hsc]
      rfl
    · intro s e s' ⟨hreach, hb⟩ hcond hstep
      refine ⟨hreach.tail ⟨e, trivial, hstep⟩, fun r hr => ?_⟩
      simp only [Sys.step, Option.ite_none_right_eq_some, Option.map_eq_some_iff] at hstep
      obtain ⟨hcorrect, nd, hnd, rfl⟩ := hstep
      obtain ⟨hid, hn, hrse, hwf⟩ := hreach.valid hcorrect
      by_cases hrr : r = e.at_
      · subst hrr
        have hnode : ((s.set e.at_ nd).node e.at_) = nd := by simp [Sys.set]
        rw [hnode]
        have hsize : shards.length ≤ 2 ^ 16 := by
          rw [hlen]
          exact D.idWidth
        apply Replica.handle_binds hwf (hb _ hcorrect) _ hsize hcond (handle_alone hnd hid hn)
        intro cmds' parents' extra' hbuilt'
        exact hbuilt.again (hrse.trans hrse₀.symm) hbuilt'
      · have hnode : ((s.set e.at_ nd).node r) = s.node r := by simp [Sys.set, hrr]
        rw [hnode]
        exact hb r hr
  apply hinv.2 r hr
  rwa [hlen]

end Sys
namespace Concrete

/-- The shards of a block without commands. -/
def ownShards : List Bytes :=
  match (RSE.setParams 4).encode xorLeopard [] with
  | .ok (_, shards) => shards
  | .error _ => []

/-- The levels of the Merkle tree over them. -/
def ownLevels : List (List Bytes) :=
  match MerkleTree.build digest 5 (ownShards.map digest) with
  | .ok (levels, _) => levels
  | .error _ => []

/-- The slice that replica 0 makes for itself when it builds block 1. -/
def ownSlice : List (Slice Nat) := ((ownProposals 0 1).take 1).map (·.slice)

/-- A slice for block 1 with a tree of its own. -/
def forgedSlice : Slice Nat :=
  { mData := [1], mIndex := 0, mRootHash := digest [1], mBranch := [], mBlkHash := 1 }

/-- Replica 0 builds block 1, and replica 1 gets slices from `src`. -/
def buildAndSlice (src : ReplicaID) (slices : List (Slice Nat)) : List (Event Nat Signature) :=
  .propose 0 [] [] [0] [7] :: slices.map fun s =>
    .receiveSlice 1 src ((primitives rebuiltBlocks [[]]).hashSlice s) s

theorem own_encodes : ((Sys.init (primitives rebuiltBlocks [[]]) fourReplicas noCert).node 0).core.Encodes
    (primitives rebuiltBlocks [[]]) [] [0] [7] 1 ownShards where
  built := by decide +kernel
  encoded := by decide +kernel

set_option maxRecDepth 100000 in
theorem slice_run :
    (Transition.runBy (Sys.step (primitives rebuiltBlocks [[]]) fourReplicas)
      (fun s e => (s.node e.at_).fillsFromTree (primitives rebuiltBlocks [[]]) 1 ownShards e = true)
      (Sys.init (primitives rebuiltBlocks [[]]) fourReplicas noCert) (buildAndSlice 0 ownSlice)).map
        (fun s => ((s.node 1).core.sc.shardAt 1 0).length) = some 64 := by
  decide +kernel

/-- Replica 1 takes the slice of replica 0 in, and has the shard of its place. -/
theorem slice_binding_own : ∃ s : Sys Nat Signature,
    ((s.node 1).core.sc.shardAt 1 0).length = 64 ∧
      ownShards[0]? = some ((s.node 1).core.sc.shardAt 1 0) := by
  obtain ⟨s, hreach, hlen⟩ := Transition.runBy_map_reaches slice_run
  refine ⟨s, hlen, ?_⟩
  obtain hempty | hshard :=
    Sys.slice_binding .refl (by decide) own_encodes hreach (r := 1) (by decide) (i := 0) (by decide)
  · simp [hempty] at hlen
  · exact hshard

set_option maxRecDepth 100000 in
theorem forged_run :
    (Transition.runBy (Sys.step (primitives rebuiltBlocks [[]]) fourReplicas) (fun _ _ => True)
      (Sys.init (primitives rebuiltBlocks [[]]) fourReplicas noCert)
      (buildAndSlice 3 [forgedSlice])).map
        (fun s => ((s.node 0).core.delivered 1, (s.node 1).core.sc.shardAt 1 0)) =
      some (true, [1]) := by
  decide +kernel

/-- Replica 0 builds block 1. Replica 3 sends a slice with a tree of its own for it, and replica 1
stores its data, which is no shard of the block; no two strings collide. -/
theorem slice_forged : ∃ s : Sys Nat Signature,
    s.Reachable (primitives rebuiltBlocks [[]]) fourReplicas noCert ∧
      ((Sys.init (primitives rebuiltBlocks [[]]) fourReplicas noCert).node 0).core.Encodes
        (primitives rebuiltBlocks [[]]) [] [0] [7] 1 ownShards ∧
      (s.node 0).core.delivered 1 = true ∧
      NoCollision digest (forgedSlice.hashed digest) (MerkleTree.hashed ownShards ownLevels) ∧
      (s.node 1).core.sc.shardAt 1 0 ≠ [] ∧
      ownShards[0]? ≠ some ((s.node 1).core.sc.shardAt 1 0) := by
  obtain ⟨s, hreach, hseen⟩ := Transition.runBy_map_reaches forged_run
  obtain ⟨hdel, hshard⟩ := Prod.mk.inj hseen
  refine ⟨s, hreach, own_encodes, hdel, by decide +kernel, ?_, ?_⟩
  · rw [hshard]
    decide
  · rw [hshard]
    decide +kernel

end Concrete
end LibHotStuff
