import LibHotStuff.Model.MerkleTree
import Mathlib

namespace LibHotStuff

/-- The strings that the rounds of `validate` hash. -/
def MerkleProof.climbed (sha : Bytes → Bytes) : List Bytes → Bytes → Int → List Bytes
  | [], _, _ => []
  | b :: bs, cur, i =>
    let pair := if i.tmod 2 = 0 then cur ++ b else b ++ cur
    pair :: climbed sha bs (sha pair) (i.tdiv 2)

/-- The strings that `validate` hashes. -/
def MerkleProof.hashed (sha : Bytes → Bytes) (p : MerkleProof) : List Bytes :=
  p.mData :: climbed sha p.mBranch (sha p.mData) p.mIndex

/-- No string of the first list collides with one of the second. -/
def NoCollision (sha : Bytes → Bytes) (xs ys : List Bytes) : Prop :=
  ∀ x ∈ xs, ∀ y ∈ ys, sha x = sha y → x = y

instance (sha : Bytes → Bytes) (xs ys : List Bytes) : Decidable (NoCollision sha xs ys) :=
  inferInstanceAs (Decidable (∀ x ∈ xs, ∀ y ∈ ys, sha x = sha y → x = y))

namespace MerkleTree

/-- The neighbours of a padded level, joined. -/
def pairs : List Bytes → List Bytes
  | a :: b :: rest => (a ++ b) :: pairs rest
  | _ => []

/-- The strings that the construction hashes. -/
def hashed (shards : List Bytes) (levels : List (List Bytes)) : List Bytes :=
  shards ++ levels.flatMap pairs

variable {sha : Bytes → Bytes}

theorem pairUp_eq (level : List Bytes) : pairUp sha level = (pairs level).map sha := by
  induction level using pairs.induct with
  | case1 a b rest ih => simp [pairUp, pairs, hash2Leaf, ih]
  | case2 level h => rw [pairUp, pairs] <;> simp_all

theorem pairs_getElem? {level : List Bytes} {j : Nat} (hj : 2 * j + 1 < level.length) :
    ∃ a b, level[2 * j]? = some a ∧ level[2 * j + 1]? = some b ∧ (pairs level)[j]? = some (a ++ b) := by
  induction level using pairs.induct generalizing j with
  | case1 a b rest ih =>
    cases j with
    | zero => exact ⟨a, b, by simp, by simp, by simp [pairs]⟩
    | succ j =>
      have hj' : 2 * j + 1 < rest.length := by
        simp only [List.length_cons] at hj
        omega
      obtain ⟨x, y, hx, hy, hxy⟩ := ih hj'
      refine ⟨x, y, ?_, ?_, by simpa [pairs] using hxy⟩
      · rw [show 2 * (j + 1) = 2 * j + 1 + 1 by omega]
        simpa using hx
      · rw [show 2 * (j + 1) + 1 = 2 * j + 1 + 1 + 1 by omega]
        simpa using hy
  | case2 level h =>
    match level, h, hj with
    | [], _, hj => simp at hj
    | [_], _, hj =>
      simp only [List.length_cons, List.length_nil] at hj
      omega
    | a :: b :: rest, h, _ => exact absurd rfl (h a b rest)

theorem padLevel_length (level : List Bytes) :
    (padLevel level).length = 2 * ((level.length + 1) / 2) := by
  unfold padLevel
  split
  · rw [List.length_append, List.length_singleton]
    omega
  · omega

theorem padLevel_getElem? {level : List Bytes} {i : Nat} (hi : i < level.length) :
    (padLevel level)[i]? = level[i]? := by
  unfold padLevel
  split
  · exact List.getElem?_append_left hi
  · rfl

theorem mem_padLevel {level : List Bytes} (h : ∀ y ∈ level, y.length = 64) :
    ∀ y ∈ padLevel level, y.length = 64 := by
  intro y hy
  unfold padLevel at hy
  split at hy
  · simp only [List.mem_append, List.mem_singleton] at hy
    obtain hy | hy := hy
    · exact h y hy
    · rw [hy]
      simp [emptyHash]
  · exact h y hy

theorem pairs_mem_length {level : List Bytes} (h : ∀ y ∈ level, y.length = 64) {z : Bytes}
    (hz : z ∈ pairs level) : z.length = 128 := by
  induction level using pairs.induct with
  | case1 a b rest ih =>
    obtain ⟨ha, hb, hrest⟩ : a.length = 64 ∧ b.length = 64 ∧ ∀ y ∈ rest, y.length = 64 := by
      simpa using h
    rw [pairs, List.mem_cons] at hz
    obtain rfl | hz := hz
    · rw [List.length_append, ha, hb]
    · exact ih hrest hz
  | case2 level h' => simp [pairs] at hz

theorem mem_padLevel_cases {level : List Bytes} {i : Nat} {y : Bytes}
    (h : (padLevel level)[i]? = some y) : level[i]? = some y ∨ y = emptyHash := by
  unfold padLevel at h
  split at h
  · rw [List.getElem?_append] at h
    split at h
    · exact Or.inl h
    · right
      simpa using List.mem_of_getElem? h
  · exact Or.inl h

/-- The last round of `build`, or the level that it hashes. -/
theorem build_cases {fuel : Nat} {level : List Bytes} {levels : List (List Bytes)} {root : Bytes}
    (h : build sha (fuel + 1) level = .ok (levels, root)) :
    level = [root] ∧ levels = [] ∨
      ∃ levels', build sha fuel (pairUp sha (padLevel level)) = .ok (levels', root) ∧
        levels = padLevel level :: levels' := by
  unfold build at h
  split at h
  · rename_i r
    simp only [Except.ok.injEq, Prod.mk.injEq] at h
    obtain ⟨hl, hr⟩ := h
    rw [hr]
    exact Or.inl ⟨rfl, hl.symm⟩
  · cases hb : build sha fuel (pairUp sha (padLevel level)) with
    | error f => simp [hb, Except.map] at h
    | ok x =>
      simp only [hb, Except.map, Except.ok.injEq, Prod.mk.injEq] at h
      obtain ⟨hl, hr⟩ := h
      rw [← hl, ← hr]
      exact Or.inr ⟨x.1, rfl, rfl⟩

theorem pairs_length (level : List Bytes) : (pairs level).length = level.length / 2 := by
  induction level using pairs.induct with
  | case1 a b rest ih =>
    simp only [pairs, List.length_cons, ih]
    omega
  | case2 level h =>
    match level, h with
    | [], _ => rfl
    | [_], _ => simp [pairs]
    | a :: b :: rest, h => exact absurd rfl (h a b rest)

/-- A tree has room for the strings it is built over. -/
theorem build_length_le {fuel : Nat} {level : List Bytes} {levels : List (List Bytes)} {root : Bytes}
    (h : build sha fuel level = .ok (levels, root)) : level.length ≤ 2 ^ levels.length := by
  induction fuel generalizing level levels with
  | zero => simp [build] at h
  | succ fuel ih =>
    obtain ⟨rfl, rfl⟩ | ⟨levels', hb, rfl⟩ := build_cases h
    · exact Nat.le_refl 1
    · have hrest := ih hb
      have hlen := padLevel_length level
      rw [pairUp_eq, List.length_map, pairs_length] at hrest
      rw [List.length_cons, Nat.pow_succ]
      omega

/-- The rounds of `validate` look at the digits of the absolute value of the index. -/
theorem natAbs_tdiv (i : Int) : (i.tdiv 2).natAbs = i.natAbs / 2 := by
  rw [Int.natAbs_tdiv]
  rfl

theorem tmod_eq_zero (i : Int) : i.tmod 2 = 0 ↔ i.natAbs % 2 = 0 := by
  rw [← Int.natAbs_eq_zero, Int.natAbs_tmod]
  rfl

/-- A climb that ends at the root of a tree has started at the leaf of its index, or at a string
that no hash of the climb can be: each round hashes the pair that the tree has there, since it would
collide with it otherwise. -/
theorem build_binds (hsha : ∀ x, (sha x).length = 64) {fuel : Nat} {level : List Bytes}
    {levels : List (List Bytes)} {root : Bytes} (h : build sha fuel level = .ok (levels, root))
    (hlevel : ∀ y ∈ level, y.length = 64) {branch : List Bytes} {cur : Bytes} {i : Int}
    (hcur : cur.length = 64) (hbranch : branch.length = levels.length)
    (hin : i.natAbs % 2 ^ levels.length < level.length ∨
      cur ≠ emptyHash ∧ ∀ x ∈ MerkleProof.climbed sha branch cur i, sha x ≠ emptyHash)
    (hfree : NoCollision sha (MerkleProof.climbed sha branch cur i) (levels.flatMap pairs))
    (hroot : MerkleProof.climb sha branch cur i = root) :
    level[i.natAbs % 2 ^ levels.length]? = some cur := by
  induction fuel generalizing level levels branch cur i with
  | zero => simp [build] at h
  | succ fuel ih =>
    obtain ⟨rfl, rfl⟩ | ⟨levels', hb, rfl⟩ := build_cases h
    · obtain rfl := List.eq_nil_of_length_eq_zero hbranch
      rw [MerkleProof.climb] at hroot
      simp [hroot, Nat.mod_one]
    · cases branch with
      | nil => simp at hbranch
      | cons b bs =>
        rw [MerkleProof.climb] at hroot
        rw [MerkleProof.climbed] at hfree hin
        simp only [hash2Leaf, ← apply_ite sha] at hroot
        generalize hpair : (if i.tmod 2 = 0 then cur ++ b else b ++ cur) = pair at *
        rw [pairUp_eq] at hb
        have hdigits : i.natAbs % 2 ^ (padLevel level :: levels').length =
            2 * (i.natAbs / 2 % 2 ^ levels'.length) + i.natAbs % 2 := by
          rw [List.length_cons, Nat.pow_succ', Nat.mod_mul]
          omega
        rw [hdigits] at hin ⊢
        have hrest : NoCollision sha (MerkleProof.climbed sha bs (sha pair) (i.tdiv 2))
            (levels'.flatMap pairs) := by
          intro u hu v hv
          apply hfree u (List.mem_cons_of_mem _ hu) v
          rw [List.flatMap_cons]
          exact List.mem_append_right _ hv
        have hlen := padLevel_length level
        have hup := pairs_length (padLevel level)
        have hnext : ((pairs (padLevel level)).map sha)[i.natAbs / 2 % 2 ^ levels'.length]? =
            some (sha pair) := by
          rw [← natAbs_tdiv]
          apply ih hb (by simp [hsha]) (hsha _) (by simpa using hbranch) _ hrest hroot
          obtain hlt | ⟨_, hall⟩ := hin
          · left
            rw [List.length_map, natAbs_tdiv]
            omega
          · exact Or.inr ⟨hall pair List.mem_cons_self, fun x hx => hall x (List.mem_cons_of_mem _ hx)⟩
        have hlt := (List.getElem?_eq_some_iff.mp hnext).1
        rw [List.length_map] at hlt
        have hlt' : 2 * (i.natAbs / 2 % 2 ^ levels'.length) + 1 < (padLevel level).length := by omega
        obtain ⟨x, y, hx, hy, hxy⟩ := pairs_getElem? hlt'
        have hx64 := mem_padLevel hlevel x (List.mem_of_getElem? hx)
        have hy64 := mem_padLevel hlevel y (List.mem_of_getElem? hy)
        rw [List.getElem?_map, hxy, Option.map_some, Option.some.injEq] at hnext
        have heq : pair = x ++ y := by
          apply hfree pair List.mem_cons_self (x ++ y) _ hnext.symm
          rw [List.flatMap_cons]
          exact List.mem_append_left _ (List.mem_of_getElem? hxy)
        rw [heq] at hpair
        have hat : (padLevel level)[2 * (i.natAbs / 2 % 2 ^ levels'.length) + i.natAbs % 2]? =
            some cur := by
          by_cases hpar : i.tmod 2 = 0
          · rw [if_pos hpar] at hpair
            rw [(tmod_eq_zero i).mp hpar, Nat.add_zero, hx,
              (List.append_inj hpair (hcur.trans hx64.symm)).1]
          · rw [if_neg hpar] at hpair
            have hodd : i.natAbs % 2 = 1 := by
              have hne := (tmod_eq_zero i).not.mp hpar
              omega
            rw [hodd, hy, (List.append_inj' hpair (hcur.trans hy64.symm)).2]
        -- the string that pads a level is no hash
        obtain hlt | ⟨hne, _⟩ := hin
        · rwa [padLevel_getElem? hlt] at hat
        · obtain hin | hpad := mem_padLevel_cases hat
          · exact hin
          · exact absurd hpad hne

/-- A proof with the root of a tree and a branch of its height, none of whose strings collides
with one of the tree, is for the data at its index. -/
theorem validate_binds (hsha : ∀ x, (sha x).length = 64) {fuel : Nat} {shards : List Bytes}
    {levels : List (List Bytes)} {root : Bytes}
    (h : build sha fuel (shards.map sha) = .ok (levels, root)) {p : MerkleProof}
    (hvalid : p.validate sha = true) (hroot : p.mRootHash = root)
    (hbranch : p.mBranch.length = levels.length)
    (hfree : NoCollision sha (p.hashed sha) (hashed shards levels)) {i : Nat}
    (hi : i < shards.length) (hindex : p.mIndex = i) : shards[i]? = some p.mData := by
  have hclimb : MerkleProof.climb sha p.mBranch (sha p.mData) i = root := by
    rw [MerkleProof.validate, hindex, hroot] at hvalid
    exact eq_of_beq hvalid
  rw [MerkleProof.hashed, hindex] at hfree
  have hroom := build_length_le h
  rw [List.length_map] at hroom
  have hat : (i : Int).natAbs % 2 ^ levels.length = i := by
    rw [Int.natAbs_natCast, Nat.mod_eq_of_lt (Nat.lt_of_lt_of_le hi hroom)]
  have hleaf := build_binds hsha h (by simp [hsha]) (hsha _) hbranch
    (Or.inl (by rwa [hat, List.length_map]))
    (fun x hx y hy => hfree x (List.mem_cons_of_mem _ hx) y (List.mem_append_right _ hy)) hclimb
  rw [hat] at hleaf
  rw [List.getElem?_map, List.getElem?_eq_getElem hi, Option.map_some, Option.some.injEq] at hleaf
  rw [List.getElem?_eq_getElem hi, hfree p.mData List.mem_cons_self shards[i]
    (List.mem_append_left _ (List.getElem_mem hi)) hleaf.symm]

end MerkleTree
end LibHotStuff
