import LibHotStuff.Proofs.Decoding
import LibHotStuff.Proofs.Sturdy

namespace LibHotStuff

variable {H Sig : Type} {P : Primitives H Sig} {n : Nat}

/-- Block `h` has the hash of the commands, and `n` replicas encode these into the shards. -/
def Primitives.Shards (P : Primitives H Sig) (n : Nat) (h : H) (cmds : List UInt256)
    (shards : List Bytes) : Prop :=
  ∃ data, P.hashBlock data = h ∧ data.cmds = [P.hashCommands cmds] ∧
    (RSE.setParams n).encode P.leopard (Core.encodeInput cmds) = .ok (0, shards)

theorem Primitives.Shards.unique {h : H} {cmds cmds' : List UInt256} {S S' : List Bytes}
    (hs : P.Shards n h cmds S) (hs' : P.Shards n h cmds' S') : cmds = cmds' ∧ S = S' := by
  obtain ⟨data, hdata, hcmds, henc⟩ := hs
  obtain ⟨data', hdata', hcmds', henc'⟩ := hs'
  obtain rfl := P.hashBlock_injective (hdata.trans hdata'.symm)
  rw [hcmds] at hcmds'
  obtain rfl := P.hashCommands_injective (List.cons.inj hcmds').1
  rw [henc] at henc'
  simp only [Except.ok.injEq, Prod.mk.injEq, true_and] at henc'
  exact ⟨rfl, henc'⟩

theorem Primitives.Shards.length {h : H} {cmds : List UInt256} {S : List Bytes}
    (hs : P.Shards n h cmds S) : S.length = n := by
  obtain ⟨_, _, _, henc⟩ := hs
  have hlen := RSE.encode_length henc
  have hfaulty : (n - 1) / 3 ≤ n := by omega
  simp only [RSE.setParams] at hlen
  rw [hlen, Nat.sub_add_cancel hfaulty]

/-- No shard is empty. -/
theorem RSE.encode_ne_nil {leo : Leopard} {r : RSE} (mds : leo.Mds r.originalCount r.recoveryCount)
    {input : Bytes} {S : List Bytes} (henc : r.encode leo input = .ok (0, S)) :
    ∀ x ∈ S, x ≠ [] := by
  obtain ⟨s, work, _, _, hsize, hleo, _, rfl⟩ := encode_ok henc
  have hspos : 0 < s := by
    by_contra h0
    rw [Nat.eq_zero_of_not_pos h0, Nat.zero_mul] at hsize
    omega
  have hb := bufferBytes_pos hspos
  have hO := originalData_size (r := r) (inputData_length (s := s) hsize)
  have hwork := mds.workLength _ _ work originalData_length hO hleo
  have hall : ∀ x ∈ r.originalData (inputData input s (s * r.originalCount)) s (bufferBytes s) ++
      work.take r.recoveryCount, x.length = bufferBytes s := by
    intro x hx
    obtain hx | hx := List.mem_append.mp hx
    · exact hO x hx
    · exact hwork x (List.mem_of_mem_take hx)
  intro x hx hnil
  have hlen := hall x hx
  rw [hnil, List.length_nil] at hlen
  omega

/-- A slice has the shard of its place. -/
def Slice.Genuine (P : Primitives H Sig) (n : Nat) (s : Slice H) : Prop :=
  ∃ cmds shards, P.Shards n s.mBlkHash cmds shards ∧ shards[s.place]? = some s.mData

namespace ShardsContainer

/-- The places of `n` replicas have shards of their blocks, and no place is counted twice. -/
structure Genuine (P : Primitives H Sig) (n : Nat) (sc : ShardsContainer H) : Prop where
  sized : sc.Sized n
  threshold : sc.threshold = n - (n - 1) / 3
  counted : ∀ h e, sc.shards h = some e → e.2 + e.1.count [] ≤ n
  genuine : ∀ h i, sc.shardAt h i ≠ [] →
    ∃ cmds S, P.Shards n h cmds S ∧ S[i]? = some (sc.shardAt h i)

variable {sc sc' : ShardsContainer H}

/-- Entries are removed. -/
theorem Genuine.shrinks (hg : sc.Genuine P n) (hs : sc.Shrinks sc')
    (hcounts : sc'.threshold = sc.threshold ∧ sc'.nodenum = sc.nodenum) : sc'.Genuine P n := by
  have hentry (h : H) (e : List Bytes × Nat) (he : sc'.shards h = some e) : sc.shards h = some e := by
    obtain hx | hx := hs h
    · rwa [← hx]
    · rw [hx] at he
      cases he
  refine ⟨⟨hcounts.2.trans hg.sized.nodenum, fun h e he => hg.sized.places h e (hentry h e he)⟩,
    hcounts.1.trans hg.threshold, fun h e he => hg.counted h e (hentry h e he), fun h i hi => ?_⟩
  have hsame : sc'.shardAt h i = sc.shardAt h i := by
    obtain hx | hx := hs h
    · simp only [shardAt, hx]
    · exact absurd (by simp [shardAt, hx]) hi
  rw [hsame] at hi ⊢
  exact hg.genuine h i hi

variable [DecidableEq H]

theorem newBlock_counted (hg : sc.Genuine P n) (x h : H) (e : List Bytes × Nat)
    (he : (sc.newBlock x).shards h = some e) : e.2 + e.1.count [] ≤ n := by
  unfold newBlock at he
  split at he
  · exact hg.counted h e he
  · change Function.update sc.shards x _ h = some e at he
    by_cases hx : h = x
    · subst hx
      rw [Function.update_self] at he
      rw [← Option.some.inj he, hg.sized.nodenum]
      simp
    · rw [Function.update_of_ne hx] at he
      exact hg.counted h e he

/-- A shard that is put at an empty place makes one empty place less. -/
theorem insertShard_counted (hg : sc.Genuine P n) {x : H} {idx : Nat} {data : Bytes} {rc : Int}
    (hok : sc.insertShard x idx data = .ok (rc, sc')) (hdata : data ≠ []) (h : H)
    (e : List Bytes × Nat) (he : sc'.shards h = some e) : e.2 + e.1.count [] ≤ n := by
  have hnew := newBlock_counted hg x
  unfold insertShard at hok
  dsimp only at hok
  split at hok
  · cases hok
  rename_i first second hentry
  split at hok
  · cases hok
  rename_i cur hcur
  split at hok
  · simp only [Except.ok.injEq, Prod.mk.injEq] at hok
    rw [← hok.2] at he
    exact hnew h e he
  · rename_i hlen
    simp only [Except.ok.injEq, Prod.mk.injEq] at hok
    rw [← hok.2] at he
    change Function.update (sc.newBlock x).shards x _ h = some e at he
    by_cases hx : h = x
    · subst hx
      rw [Function.update_self] at he
      have hempty : cur = [] := List.eq_nil_of_length_eq_zero (by simpa using hlen)
      obtain ⟨hlt, hget⟩ := List.getElem?_eq_some_iff.mp hcur
      have hpos : 0 < first.count [] := List.count_pos_iff.mpr (by
        rw [← hempty, ← hget]
        exact List.getElem_mem hlt)
      have hbound : second + first.count [] ≤ n := hnew h _ hentry
      rw [← Option.some.inj he, List.count_set hlt, hget, hempty]
      simp only [beq_self_eq_true, if_true, beq_eq_false_iff_ne.mpr hdata, Bool.false_eq_true,
        if_false]
      omega
    · rw [Function.update_of_ne hx] at he
      exact hnew h e he

/-- A shard of the block is put at its place. -/
theorem Genuine.insertShard (mds : P.leopard.Mds (RSE.setParams n).originalCount
      (RSE.setParams n).recoveryCount) (hg : sc.Genuine P n) {s : Slice H} (hs : s.Genuine P n)
    {rc : Int} (hok : sc.insertShard s.mBlkHash s.place s.mData = .ok (rc, sc')) :
    sc'.Genuine P n := by
  obtain ⟨cmds, S, hshards, hplace⟩ := hs
  have hdata : s.mData ≠ [] := by
    obtain ⟨_, _, _, henc⟩ := hshards
    exact RSE.encode_ne_nil mds henc _ (List.mem_of_getElem? hplace)
  obtain he | ⟨_, _, heq, hthreshold, _, hat⟩ := insertShard_cases sc s.mBlkHash s.place s.mData
  · rw [he] at hok
    cases hok
  rw [heq] at hok
  cases hok
  refine ⟨hg.sized.inserted heq, hthreshold.trans hg.threshold, insertShard_counted hg heq hdata,
    fun h i hi => ?_⟩
  rw [hat] at hi ⊢
  by_cases hput : h = s.mBlkHash ∧ i = s.place ∧ sc.shardAt s.mBlkHash s.place = []
  · rw [if_pos hput, hput.1, hput.2.1]
    exact ⟨cmds, S, hshards, hplace⟩
  · rw [if_neg hput] at hi ⊢
    exact hg.genuine h i hi

omit [DecidableEq H] in
/-- When `get_block` finds enough shards, they are shards of one list of commands. -/
theorem Genuine.getBlock (hg : sc.Genuine P n) (hn : 0 < n) {h : H} {input : List Bytes}
    (hget : sc.getBlock h = (0, input)) :
    ∃ cmds S, P.Shards n h cmds S ∧ Surviving input S ∧
      input.count [] ≤ (RSE.setParams n).recoveryCount := by
  unfold ShardsContainer.getBlock at hget
  split at hget
  · cases hget
  rename_i first second hentry
  split at hget
  · cases hget
  rename_i henough
  obtain rfl : first = input := by simpa using hget
  have hcounted : second + first.count [] ≤ n := hg.counted h _ hentry
  have hlen : first.length = n := hg.sized.places h _ hentry
  rw [hg.threshold] at henough
  have hat (i : Nat) (x : Bytes) (hx : first[i]? = some x) : sc.shardAt h i = x := by
    simp [shardAt, hentry, hx]
  have hsome : ∃ x ∈ first, x ≠ [] := by
    by_contra hall
    have hfull : first.count [] = first.length := by
      apply List.count_eq_length.mpr
      intro x hx
      by_contra hne
      exact hall ⟨x, hx, fun h => hne h.symm⟩
    omega
  obtain ⟨x, hx, hne⟩ := hsome
  obtain ⟨j, hj⟩ := List.mem_iff_getElem?.mp hx
  obtain ⟨cmds, S, hshards, _⟩ := hg.genuine h j (by rwa [hat j x hj])
  refine ⟨cmds, S, hshards, List.forall₂_iff_get.mpr ⟨hlen.trans hshards.length.symm, ?_⟩, ?_⟩
  · intro i hi hi'
    simp only [List.get_eq_getElem]
    by_cases hnil : first[i] = []
    · exact Or.inl hnil
    · right
      have hi'' := hat i _ (List.getElem?_eq_getElem hi)
      obtain ⟨_, S', hshards', hplace⟩ := hg.genuine h i (by rwa [hi''])
      rw [← (hshards.unique hshards').2, hi'', List.getElem?_eq_getElem hi'] at hplace
      exact (Option.some.inj hplace).symm
  · simp only [RSE.setParams]
    omega

end ShardsContainer

namespace Core

/-- The shards are those of the blocks, and so are the commands that have been decoded. -/
structure Genuine (P : Primitives H Sig) (n : Nat) (c : Core H Sig) : Prop where
  rse : c.rse = RSE.setParams n
  shards : c.sc.Genuine P n
  decoded : ∀ h cmds, c.futures h = some (.ok cmds) → ∃ S, P.Shards n h cmds S

variable {c c' : Core H Sig}

theorem Genuine.of_eq (hg : c.Genuine P n) (hrse : c'.rse = c.rse) (hsc : c'.sc = c.sc)
    (hfutures : c'.futures = c.futures) : c'.Genuine P n where
  rse := hrse.trans hg.rse
  shards := by
    rw [hsc]
    exact hg.shards
  decoded := by
    rw [hfutures]
    exact hg.decoded

theorem Committed.genuine {queue done : List H} {r : Res H Sig} (h : c.Committed queue r done)
    (hg : c.Genuine P n) : r.core.Genuine P n where
  rse := h.same.rse.trans hg.rse
  shards := hg.shards.shrinks (fun x => (h.shards x).imp_right And.right) h.counts
  decoded x cmds hx := by
    obtain heq | ⟨_, hnone⟩ := h.futures x
    · exact hg.decoded x cmds (by rwa [← heq])
    · rw [hnone] at hx
      cases hx

variable [DecidableEq H]
  (mds : P.leopard.Mds (RSE.setParams n).originalCount (RSE.setParams n).recoveryCount)
  (hn : 0 < n) (hn' : n < 2 ^ 32)
include mds hn hn'

/-- What `update` starts to decode are the commands of the block. -/
theorem Prepared.genuine {nblk : H} {outs : List (Output H Sig)} (h : c.Prepared P nblk c' outs)
    (hg : c.Genuine P n) : c'.Genuine P n := by
  have hrse := congrArg Core.rse h.rest
  have hsc := congrArg Core.sc h.rest
  refine ⟨hrse.trans hg.rse, by rw [hsc]; exact hg.shards, fun x cmds hx => ?_⟩
  obtain heq | ⟨input, hget, _, _, heq⟩ := h.futures
  · exact hg.decoded x cmds (by rwa [← heq])
  · rw [heq] at hx
    by_cases hblk : x = P.justify (P.justify nblk)
    · subst hblk
      obtain ⟨cmds', S, hshards, hsurv, hcount⟩ := hg.shards.getBlock hn hget
      have henc := hshards
      obtain ⟨_, _, _, henc⟩ := henc
      rw [Function.update_self, hg.rse, asyncDecode_encode hn' mds henc hsurv hcount] at hx
      split at hx
      · obtain rfl : cmds' = cmds := by simpa using hx
        exact ⟨S, hshards⟩
      · cases hx
    · rw [Function.update_of_ne hblk] at hx
      exact hg.decoded x cmds hx

end Core
end LibHotStuff
