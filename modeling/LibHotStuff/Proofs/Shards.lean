import LibHotStuff.Model.ShardsContainer
import Mathlib

namespace LibHotStuff.ShardsContainer

variable {H : Type}

/-- The shard stored for a block at an index; no shard is the empty one. -/
def shardAt (sc : ShardsContainer H) (h : H) (i : Nat) : Bytes :=
  ((sc.shards h).bind fun e => e.1[i]?).getD []

/-- Every shard of the first container is in the second one. -/
def Keeps (sc sc' : ShardsContainer H) : Prop :=
  ∀ h i, sc.shardAt h i ≠ [] → sc'.shardAt h i = sc.shardAt h i

theorem Keeps.refl (sc : ShardsContainer H) : sc.Keeps sc := fun _ _ _ => rfl

theorem Keeps.trans {sc sc' sc'' : ShardsContainer H} (h : sc.Keeps sc') (h' : sc'.Keeps sc'') :
    sc.Keeps sc'' := by
  intro x i hne
  have heq := h x i hne
  rw [h' x i (by rwa [heq]), heq]

variable [DecidableEq H] {sc sc' : ShardsContainer H} {h : H} {idx : Nat} {data : Bytes}

theorem newBlock_shardAt (sc : ShardsContainer H) (h x : H) (i : Nat) :
    (sc.newBlock h).shardAt x i = sc.shardAt x i := by
  unfold newBlock
  split
  · rfl
  · rename_i hnone
    by_cases hx : x = h
    · subst hx
      simp only [shardAt, hnone, Function.update_self, Option.bind_some, Option.bind_none]
      cases hi : (List.replicate sc.nodenum ([] : Bytes))[i]? with
      | none => rfl
      | some y => rw [(List.eq_of_mem_replicate (List.mem_of_getElem? hi) : y = [])]; rfl
    · simp [shardAt, hx]

theorem shardAt_of_newBlock {first : List Bytes} {second : Nat} {cur : Bytes}
    (hentry : (sc.newBlock h).shards h = some (first, second)) (hcur : first[idx]? = some cur) :
    sc.shardAt h idx = cur := by
  rw [← newBlock_shardAt sc h, shardAt, hentry]
  simp [hcur]

/-- An `insert_shard` that returns finds a shard at the place, or puts the data there. -/
theorem insertShard_ok {rc : Int} (hok : sc.insertShard h idx data = .ok (rc, sc')) :
    ∃ first second cur, (sc.newBlock h).shards h = some (first, second) ∧ first[idx]? = some cur ∧
      (cur ≠ [] ∧ rc = -1 ∧ sc' = sc.newBlock h ∨
        cur = [] ∧ rc = 0 ∧ sc' = { sc.newBlock h with
          shards := Function.update (sc.newBlock h).shards h
            (some (first.set idx data, second + 1)) }) := by
  unfold insertShard at hok
  dsimp only at hok
  split at hok
  · cases hok
  rename_i first second hentry
  split at hok
  · cases hok
  rename_i cur hcur
  refine ⟨first, second, cur, hentry, hcur, ?_⟩
  split at hok
  · rename_i hlen
    obtain ⟨rfl, rfl⟩ := Prod.mk.inj (Except.ok.inj hok)
    exact Or.inl ⟨List.ne_nil_of_length_pos (Nat.pos_of_ne_zero hlen), rfl, rfl⟩
  · rename_i hlen
    obtain ⟨rfl, rfl⟩ := Prod.mk.inj (Except.ok.inj hok)
    exact Or.inr ⟨List.eq_nil_of_length_eq_zero (not_not.mp hlen), rfl, rfl⟩

theorem newBlock_other {x : H} (hx : x ≠ h) : (sc.newBlock h).shards x = sc.shards x := by
  unfold newBlock
  split
  · rfl
  · exact Function.update_of_ne hx _ _

/-- The entries of other blocks stay. -/
theorem insertShard_other {rc : Int} (hok : sc.insertShard h idx data = .ok (rc, sc')) {x : H}
    (hx : x ≠ h) : sc'.shards x = sc.shards x := by
  obtain ⟨first, second, cur, _, _, ⟨_, _, rfl⟩ | ⟨_, _, rfl⟩⟩ := insertShard_ok hok
  · exact newBlock_other hx
  · exact (Function.update_of_ne hx _ _).trans (newBlock_other hx)

/-- What `insert_shard` does to the shards: the first writer of a place wins. -/
theorem insertShard_cases (sc : ShardsContainer H) (h : H) (idx : Nat) (data : Bytes) :
    sc.insertShard h idx data = .error .undefined ∨
      ∃ rc sc', sc.insertShard h idx data = .ok (rc, sc') ∧ sc'.threshold = sc.threshold ∧
        sc'.nodenum = sc.nodenum ∧
        ∀ x i, sc'.shardAt x i =
          if x = h ∧ i = idx ∧ sc.shardAt h idx = [] then data else sc.shardAt x i := by
  have hnew := newBlock_shardAt sc h
  have hthr : (sc.newBlock h).threshold = sc.threshold := by
    unfold newBlock
    split <;> rfl
  have hnum : (sc.newBlock h).nodenum = sc.nodenum := by
    unfold newBlock
    split <;> rfl
  unfold insertShard
  dsimp only
  split
  · exact Or.inl rfl
  rename_i first second hentry
  split
  · exact Or.inl rfl
  rename_i cur hcur
  have hat := shardAt_of_newBlock hentry hcur
  split
  · rename_i hlen
    refine Or.inr ⟨_, _, rfl, hthr, hnum, fun x i => ?_⟩
    rw [hnew, if_neg]
    rintro ⟨_, _, hempty⟩
    rw [hat] at hempty
    simp [hempty] at hlen
  · rename_i hlen
    have hempty : cur = [] := List.eq_nil_of_length_eq_zero (by simpa using hlen)
    refine Or.inr ⟨_, _, rfl, hthr, hnum, fun x i => ?_⟩
    by_cases hx : x = h
    · subst hx
      have hlt : idx < first.length := (List.getElem?_eq_some_iff.mp hcur).1
      by_cases hi : i = idx
      · subst hi
        rw [if_pos ⟨rfl, rfl, by rw [hat, hempty]⟩]
        simp [shardAt, hlt]
      · rw [if_neg (fun h => hi h.2.1), ← hnew, shardAt, shardAt, hentry]
        simp [List.getElem?_set_ne (Ne.symm hi)]
    · rw [if_neg (fun h => hx h.1), ← hnew, shardAt, shardAt]
      simp [hx]

theorem insertShard_keeps {rc : Int} (hok : sc.insertShard h idx data = .ok (rc, sc')) :
    sc.Keeps sc' := by
  intro x i hne
  rcases insertShard_cases sc h idx data with he | ⟨_, _, heq, _, _, hat⟩
  · rw [he] at hok
    cases hok
  · rw [heq] at hok
    cases hok
    rw [hat, if_neg]
    rintro ⟨rfl, rfl, hempty⟩
    exact hne hempty

end LibHotStuff.ShardsContainer
