import LibHotStuff.Proofs.Concrete
import LibHotStuff.Proofs.MerkleTree
import Mathlib

namespace LibHotStuff

/-- What a proof is meant to show: the data is the shard at the index. -/
def MerkleProof.ProvesShard (p : MerkleProof) (shards : List Bytes) : Prop :=
  0 ≤ p.mIndex ∧ p.mIndex < shards.length ∧ shards[p.mIndex.toNat]? = some p.mData

instance (p : MerkleProof) (shards : List Bytes) : Decidable (p.ProvesShard shards) :=
  inferInstanceAs (Decidable (_ ∧ _))

namespace MerkleTree

variable {sha : Bytes → Bytes}

section Complete

theorem pairUp_length (level : List Bytes) :
    (pairUp sha (padLevel level)).length = (level.length + 1) / 2 := by
  have hlen := padLevel_length level
  rw [pairUp_eq, List.length_map, pairs_length]
  omega

/-- The construction ends: each round halves a level. -/
theorem build_ok {fuel : Nat} {level : List Bytes} (hne : level ≠ []) (hfuel : level.length ≤ fuel) :
    ∃ levels root, build sha fuel level = .ok (levels, root) := by
  induction fuel generalizing level with
  | zero => exact absurd (List.eq_nil_of_length_eq_zero (Nat.le_zero.mp hfuel)) hne
  | succ fuel ih =>
    match level, hne, hfuel with
    | [root], _, _ => exact ⟨[], root, rfl⟩
    | a :: b :: rest, _, hfuel =>
      have hlen : (pairUp sha (padLevel (a :: b :: rest))).length = _ := pairUp_length _
      simp only [List.length_cons] at hlen hfuel
      have hup : pairUp sha (padLevel (a :: b :: rest)) ≠ [] := by
        intro hnil
        rw [hnil, List.length_nil] at hlen
        omega
      obtain ⟨levels, root, hb⟩ := ih hup (by omega)
      refine ⟨padLevel (a :: b :: rest) :: levels, root, ?_⟩
      rw [build, hb]
      · rfl
      · simp

/-- A tree has as few levels below its root as it can. -/
theorem build_levels {fuel : Nat} {level : List Bytes} {levels : List (List Bytes)} {root : Bytes}
    (h : build sha fuel level = .ok (levels, root)) (hne : level ≠ []) :
    levels.length = Nat.clog 2 level.length := by
  induction fuel generalizing level levels with
  | zero => simp [build] at h
  | succ fuel ih =>
    cases level with
    | nil => exact absurd rfl hne
    | cons a tail =>
      cases tail with
      | nil =>
        obtain ⟨_, rfl⟩ : [a] = [root] ∧ levels = [] := by
          simpa [build, and_comm] using h
        simp
      | cons b rest =>
        obtain ⟨hlevel, _⟩ | ⟨levels', hb, rfl⟩ := build_cases h
        · simp at hlevel
        have hlen : (pairUp sha (padLevel (a :: b :: rest))).length = _ := pairUp_length _
        have hup : pairUp sha (padLevel (a :: b :: rest)) ≠ [] := by
          intro hnil
          rw [hnil] at hlen
          simp only [List.length_nil, List.length_cons] at hlen
          omega
        have htwo : 2 ≤ (a :: b :: rest).length := by simp
        rw [List.length_cons, ih hb hup, hlen, Nat.clog_of_two_le (by decide) htwo,
          Nat.add_sub_assoc (by decide)]

theorem branch_length (levels : List (List Bytes)) (i : Nat) :
    (branch levels i).length = levels.length := by
  induction levels generalizing i with
  | nil => rfl
  | cons level levels ih => rw [branch, List.length_cons, List.length_cons, ih]

/-- The walk over the padded levels takes the neighbour of each node, and its climb ends at the
root. -/
theorem branch_climbs (hsha : ∀ x, (sha x).length = 64) {fuel : Nat} {level : List Bytes}
    {levels : List (List Bytes)} {root : Bytes} (h : build sha fuel level = .ok (levels, root))
    (hlevel : ∀ y ∈ level, y.length = 64) {i : Nat} {cur : Bytes} (hat : level[i]? = some cur) :
    (∀ y ∈ branch levels i, y.length = 64) ∧
      MerkleProof.climb sha (branch levels i) cur i = root := by
  induction fuel generalizing level levels i cur with
  | zero => simp [build] at h
  | succ fuel ih =>
    have hi := (List.getElem?_eq_some_iff.mp hat).1
    obtain ⟨rfl, rfl⟩ | ⟨levels', hb, rfl⟩ := build_cases h
    · obtain rfl : i = 0 := by simpa using hi
      refine ⟨by simp [branch], ?_⟩
      simpa [branch, MerkleProof.climb] using hat.symm
    · have hlen := padLevel_length level
      have hlt : 2 * (i / 2) + 1 < (padLevel level).length := by omega
      obtain ⟨x, y, hx, hy, hxy⟩ := pairs_getElem? hlt
      have hx64 := mem_padLevel hlevel x (List.mem_of_getElem? hx)
      have hy64 := mem_padLevel hlevel y (List.mem_of_getElem? hy)
      have hup : (pairUp sha (padLevel level))[i / 2]? = some (sha (x ++ y)) := by
        rw [pairUp_eq, List.getElem?_map, hxy, Option.map_some]
      have hup64 : ∀ z ∈ pairUp sha (padLevel level), z.length = 64 := by
        rw [pairUp_eq]
        simp [hsha]
      obtain ⟨hbranch, hclimb⟩ := ih hb hup64 hup
      have hdiv : (i : Int).tdiv 2 = (i / 2 : Nat) := by
        rw [Int.tdiv_eq_ediv_of_nonneg (by omega)]
        omega
      rw [← padLevel_getElem? hi] at hat
      rw [branch, MerkleProof.climb, hdiv]
      obtain hpar | hpar : i % 2 = 0 ∨ i % 2 = 1 := by omega
      · have hleft : i = 2 * (i / 2) := by omega
        have hcur : cur = x := by
          rw [hleft, hx] at hat
          exact (Option.some.inj hat).symm
        have hsib : (padLevel level)[i + 1]? = some y := by
          rw [hleft]
          exact hy
        have htmod : (i : Int).tmod 2 = 0 := (tmod_eq_zero i).mpr hpar
        rw [if_pos hpar, hsib, Option.getD_some, if_pos htmod, hash2Leaf, hcur]
        exact ⟨List.forall_mem_cons.mpr ⟨hy64, hbranch⟩, hclimb⟩
      · have hright : i = 2 * (i / 2) + 1 := by omega
        have hcur : cur = y := by
          rw [hright, hy] at hat
          exact (Option.some.inj hat).symm
        have hsib : (padLevel level)[i - 1]? = some x := by
          rw [hright]
          exact hx
        have hne : ¬ i % 2 = 0 := by omega
        have htmod : ¬ (i : Int).tmod 2 = 0 := (tmod_eq_zero i).not.mpr hne
        rw [if_neg hne, hsib, Option.getD_some, if_neg htmod, hash2Leaf, hcur]
        exact ⟨List.forall_mem_cons.mpr ⟨hx64, hbranch⟩, hclimb⟩

/-- Completeness: the construction over some shards ends, and each of its proofs has the shard of
its index, the root hash and a branch as short as a tree of that width allows, and is valid. -/
theorem proofs_complete (hsha : ∀ x, (sha x).length = 64) {shards : List Bytes} (hne : shards ≠ []) :
    ∃ levels root ps, build sha (shards.length + 1) (shards.map sha) = .ok (levels, root) ∧
      proofs sha shards = .ok ps ∧ ps.length = shards.length ∧
        ∀ (i : Nat) data, shards[i]? = some data → ∃ p : MerkleProof, ps[i]? = some p ∧ p.mData = data ∧
          p.mIndex = i ∧ p.mRootHash = root ∧ (∀ b ∈ p.mBranch, b.length = 64) ∧
            IsLeast {L | shards.length ≤ 2 ^ L} p.mBranch.length ∧ p.validate sha = true := by
  have hleaves : shards.map sha ≠ [] := by simpa using hne
  have hfuel : (shards.map sha).length ≤ shards.length + 1 := by simp
  obtain ⟨levels, root, hb⟩ := build_ok hleaves hfuel
  have hdepth := build_levels hb hleaves
  rw [List.length_map] at hdepth
  refine ⟨levels, root, _, hb, by rw [proofs, hb]; rfl, List.length_mapIdx, fun i data hdata => ?_⟩
  have hat : (shards.map sha)[i]? = some (sha data) := by rw [List.getElem?_map, hdata, Option.map_some]
  obtain ⟨h64, hclimb⟩ := branch_climbs hsha hb (by simp [hsha]) hat
  refine ⟨{ mData := data, mIndex := i, mRootHash := root, mBranch := branch levels i }, ?_, rfl, rfl,
    rfl, ?_, ?_, ?_⟩
  · rw [List.getElem?_mapIdx, hdata]
    rfl
  · exact h64
  · rw [branch_length, hdepth]
    exact ⟨Nat.le_pow_clog (by decide) _, fun L hL => Nat.clog_le_of_le_pow hL⟩
  · rw [MerkleProof.validate, beq_iff_eq]
    exact hclimb

end Complete

section Sound

/-- The rounds of a climb after the first ones. -/
theorem climb_drop (hsha : ∀ x, (sha x).length = 64) {branch : List Bytes} {cur : Bytes} {i : Int}
    (hcur : cur.length = 64) (hbranch : ∀ b ∈ branch, b.length = 64) {k : Nat} (hpos : 0 < k)
    (hk : k ≤ branch.length) :
    ∃ pair j, pair ∈ MerkleProof.climbed sha branch cur i ∧ pair.length = 128 ∧
      MerkleProof.climb sha branch cur i = MerkleProof.climb sha (branch.drop k) (sha pair) j ∧
        MerkleProof.climbed sha (branch.drop k) (sha pair) j ⊆ MerkleProof.climbed sha branch cur i := by
  induction k generalizing branch cur i with
  | zero => omega
  | succ k ih =>
    cases branch with
    | nil => simp at hk
    | cons b bs =>
      have hb := hbranch b List.mem_cons_self
      have hbs : ∀ b ∈ bs, b.length = 64 := fun x hx => hbranch x (List.mem_cons_of_mem _ hx)
      rw [MerkleProof.climb, MerkleProof.climbed, List.drop_succ_cons]
      simp only [hash2Leaf, ← apply_ite sha]
      generalize hpair : (if i.tmod 2 = 0 then cur ++ b else b ++ cur) = pair
      have hlen : pair.length = 128 := by
        rw [← hpair]
        split <;> rw [List.length_append, hcur, hb]
      obtain rfl | hk0 := Nat.eq_zero_or_pos k
      · exact ⟨pair, i.tdiv 2, List.mem_cons_self, hlen, rfl, List.subset_cons_self _ _⟩
      · obtain ⟨pair', j, hmem, hlen', hclimb, hsub⟩ :=
          ih (hsha pair) hbs (i := i.tdiv 2) hk0 (by simpa using hk)
        exact ⟨pair', j, List.mem_cons_of_mem _ hmem, hlen', hclimb,
          fun x hx => List.mem_cons_of_mem _ (hsub hx)⟩

/-- The rounds of the construction after the first ones: the level that they start with has hashes
of pairs. -/
theorem build_drop (hsha : ∀ x, (sha x).length = 64) {fuel : Nat} {level : List Bytes}
    {levels : List (List Bytes)} {root : Bytes} (h : build sha fuel level = .ok (levels, root))
    (hlevel : ∀ y ∈ level, y.length = 64) {k : Nat} (hpos : 0 < k) (hk : k ≤ levels.length) :
    ∃ fuel' level', build sha fuel' level' = .ok (levels.drop k, root) ∧
      ∀ y ∈ level', ∃ z ∈ levels.flatMap pairs, z.length = 128 ∧ y = sha z := by
  induction k generalizing fuel level levels with
  | zero => omega
  | succ k ih =>
    cases fuel with
    | zero => simp [build] at h
    | succ fuel =>
      obtain ⟨_, rfl⟩ | ⟨levels', hb, rfl⟩ := build_cases h
      · simp at hk
      have hup : ∀ y ∈ pairUp sha (padLevel level),
          ∃ z ∈ pairs (padLevel level), z.length = 128 ∧ y = sha z := by
        intro y hy
        rw [pairUp_eq] at hy
        obtain ⟨z, hz, rfl⟩ := List.mem_map.mp hy
        exact ⟨z, hz, pairs_mem_length (mem_padLevel hlevel) hz, rfl⟩
      rw [List.drop_succ_cons, List.flatMap_cons]
      obtain rfl | hk0 := Nat.eq_zero_or_pos k
      · refine ⟨fuel, _, hb, fun y hy => ?_⟩
        obtain ⟨z, hz, hrest⟩ := hup y hy
        exact ⟨z, List.mem_append_left _ hz, hrest⟩
      · have h64 : ∀ y ∈ pairUp sha (padLevel level), y.length = 64 := by
          intro y hy
          obtain ⟨z, _, _, rfl⟩ := hup y hy
          exact hsha z
        obtain ⟨fuel', level', hb', hall⟩ := ih hb h64 hk0 (by simpa using hk)
        refine ⟨fuel', level', hb', fun y hy => ?_⟩
        obtain ⟨z, hz, hrest⟩ := hall y hy
        exact ⟨z, List.mem_append_right _ hz, hrest⟩

/-- Soundness: take a proof with the root hash of the tree over some shards that is valid, and of
whose strings none collides with one of the tree or has the hash that pads levels. When its branch
has as many entries as the tree has levels below the root and its index as many digits, it is for
the shard at its index. Over shards that are no two hashes long, no other proof is. -/
theorem validate_sound (hsha : ∀ x, (sha x).length = 64) {shards : List Bytes}
    {levels : List (List Bytes)} {root : Bytes}
    (h : build sha (shards.length + 1) (shards.map sha) = .ok (levels, root)) {p : MerkleProof}
    (hroot : p.mRootHash = root) (hvalid : p.validate sha = true)
    (hbranch : ∀ b ∈ p.mBranch, b.length = 64)
    (hfree : NoCollision sha (p.hashed sha) (hashed shards levels))
    (hpad : ∀ x ∈ p.hashed sha, sha x ≠ emptyHash) :
    (p.mBranch.length = levels.length ∧ 0 ≤ p.mIndex ∧ p.mIndex < 2 ^ levels.length →
      p.ProvesShard shards) ∧
    ((∀ data ∈ shards, data.length ≠ 128) → p.ProvesShard shards →
      p.mBranch.length = levels.length ∧ 0 ≤ p.mIndex ∧ p.mIndex < 2 ^ levels.length) := by
  have hleaves : ∀ y ∈ shards.map sha, y.length = 64 := by simp [hsha]
  have hclimb : MerkleProof.climb sha p.mBranch (sha p.mData) p.mIndex = root := by
    rw [MerkleProof.validate, hroot] at hvalid
    exact eq_of_beq hvalid
  have hclimbed : ∀ x ∈ MerkleProof.climbed sha p.mBranch (sha p.mData) p.mIndex, x ∈ p.hashed sha :=
    fun x hx => List.mem_cons_of_mem _ hx
  have hdata : p.mData ∈ p.hashed sha := List.mem_cons_self
  constructor
  · rintro ⟨hlen, hpos, hlt⟩
    have hnat : p.mIndex.natAbs % 2 ^ levels.length = p.mIndex.toNat := by
      have hcast : ((2 ^ levels.length : Nat) : Int) = 2 ^ levels.length := by push_cast; rfl
      rw [Nat.mod_eq_of_lt (by omega)]
      omega
    have hat := build_binds hsha h hleaves (hsha _) hlen
      (Or.inr ⟨hpad _ hdata, fun x hx => hpad x (hclimbed x hx)⟩)
      (fun x hx y hy => hfree x (hclimbed x hx) y (List.mem_append_right _ hy)) hclimb
    rw [hnat, List.getElem?_map, Option.map_eq_some_iff] at hat
    obtain ⟨data, hget, hsame⟩ := hat
    have hin := (List.getElem?_eq_some_iff.mp hget).1
    refine ⟨hpos, by omega, ?_⟩
    rw [hget, hfree _ hdata data (List.mem_append_left _ (List.mem_of_getElem? hget)) hsame.symm]
  · rintro hwide ⟨hpos, hlt, hget⟩
    have hroom := build_length_le h
    rw [List.length_map] at hroom
    have hmem := List.mem_of_getElem? hget
    refine ⟨?_, hpos, ?_⟩
    · obtain hshort | heq | hlong := Nat.lt_trichotomy p.mBranch.length levels.length
      · -- the climb has started at a node above the leaves
        have hk : 0 < levels.length - p.mBranch.length := by omega
        obtain ⟨fuel', level', hb, hnodes⟩ := build_drop hsha h hleaves hk (Nat.sub_le _ _)
        have hnodes64 : ∀ y ∈ level', y.length = 64 := by
          intro y hy
          obtain ⟨z, _, _, rfl⟩ := hnodes y hy
          exact hsha z
        have hdrop : ∀ z ∈ (levels.drop (levels.length - p.mBranch.length)).flatMap pairs,
            z ∈ levels.flatMap pairs := by
          intro z hz
          obtain ⟨l, hl, hzl⟩ := List.mem_flatMap.mp hz
          exact List.mem_flatMap.mpr ⟨l, List.mem_of_mem_drop hl, hzl⟩
        have hat := build_binds hsha hb hnodes64 (hsha _) (by rw [List.length_drop]; omega)
          (Or.inr ⟨hpad _ hdata, fun x hx => hpad x (hclimbed x hx)⟩)
          (fun x hx y hy => hfree x (hclimbed x hx) y (List.mem_append_right _ (hdrop y hy))) hclimb
        obtain ⟨z, hz, hz128, hsame⟩ := hnodes _ (List.mem_of_getElem? hat)
        have heq := hfree _ hdata z (List.mem_append_right _ hz) hsame
        rw [← heq] at hz128
        exact absurd hz128 (hwide _ hmem)
      · exact heq
      · -- a leaf is the hash of a pair that the climb has hashed
        have hk : 0 < p.mBranch.length - levels.length := by omega
        obtain ⟨pair, j, hpair, hpair128, hcl, hsub⟩ :=
          climb_drop hsha (i := p.mIndex) (hsha p.mData) hbranch hk (Nat.sub_le _ _)
        rw [hcl] at hclimb
        have hat := build_binds hsha h hleaves (hsha _) (by rw [List.length_drop]; omega)
          (Or.inr ⟨hpad _ (hclimbed _ hpair), fun x hx => hpad x (hclimbed x (hsub hx))⟩)
          (fun x hx y hy => hfree x (hclimbed x (hsub hx)) y (List.mem_append_right _ hy)) hclimb
        obtain ⟨data, hin, hsame⟩ := List.mem_map.mp (List.mem_of_getElem? hat)
        have heq := hfree _ (hclimbed _ hpair) data (List.mem_append_left _ hin) hsame.symm
        rw [heq] at hpair128
        exact absurd hpair128 (hwide data hin)
    · have hcast : ((2 ^ levels.length : Nat) : Int) = 2 ^ levels.length := by push_cast; rfl
      omega

end Sound

end MerkleTree

namespace Concrete

theorem digest_length (x : Bytes) : (digest x).length = 64 := by simp [digest]

def threeShards : List Bytes := [[1], [2], [3]]

/-- The padded levels and the root hash of the tree over three shards. -/
def threeTree : List (List Bytes) × Bytes :=
  match MerkleTree.build digest 4 (threeShards.map digest) with
  | .ok tree => tree
  | .error _ => ([], [])

theorem threeTree_build :
    MerkleTree.build digest 4 (threeShards.map digest) = .ok (threeTree.1, threeTree.2) := by
  decide +kernel

theorem proofs_complete_three : ∃ ps : List MerkleProof, MerkleTree.proofs digest threeShards = .ok ps ∧
    ps.length = 3 ∧ ∃ p, ps[2]? = some p ∧ p.mData = [3] ∧ p.validate digest = true := by
  obtain ⟨_, _, ps, _, hps, hlen, hall⟩ :=
    MerkleTree.proofs_complete digest_length (List.cons_ne_nil [1] [[2], [3]])
  obtain ⟨p, hp, hdata, _, _, _, _, hvalid⟩ := hall 2 [3] rfl
  exact ⟨ps, hps, hlen, p, hp, hdata, hvalid⟩

/-- A proof for three shards with their root hash. -/
def threeProof (data : Bytes) (index : Int) (branch : List Bytes) : MerkleProof :=
  { mData := data, mIndex := index, mRootHash := threeTree.2, mBranch := branch }

/-- The last of three shards, with its proof. -/
theorem validate_sound_three :
    (threeProof [3] 2 (MerkleTree.branch threeTree.1 2)).ProvesShard threeShards := by
  have hbuild : MerkleTree.build digest (threeShards.length + 1) (threeShards.map digest) =
      .ok (threeTree.1, threeTree.2) := threeTree_build
  have hsound := MerkleTree.validate_sound digest_length hbuild
    (p := threeProof [3] 2 (MerkleTree.branch threeTree.1 2)) rfl (by decide +kernel)
    (by decide +kernel) (by decide +kernel) (by decide +kernel)
  exact hsound.1 (by decide +kernel)

/-- A proof that passes with the root hash of the tree, though no two strings collide, and proves no
shard. -/
def Forged (p : MerkleProof) : Prop :=
  p.mRootHash = threeTree.2 ∧ p.validate digest = true ∧ (∀ b ∈ p.mBranch, b.length = 64) ∧
    NoCollision digest (p.hashed digest) (MerkleTree.hashed threeShards threeTree.1) ∧
    (∀ x ∈ p.hashed digest, digest x ≠ emptyHash) ∧ ¬ p.ProvesShard threeShards

/-- An inner node passes for a leaf, and so do indices that are negative or too large. -/
theorem forged_proofs :
    Forged (threeProof (digest [1] ++ digest [2]) 0 [hash2Leaf digest (digest [3]) emptyHash]) ∧
      Forged (threeProof [2] (-1) (MerkleTree.branch threeTree.1 1)) ∧
        Forged (threeProof [2] 5 (MerkleTree.branch threeTree.1 1)) := by
  unfold Forged
  decide +kernel

end Concrete
end LibHotStuff
