import LibHotStuff.Library.Transition
import LibHotStuff.Proofs.Sturdy
import Mathlib

namespace LibHotStuff.ShardsContainer

variable {H : Type}

/-- The calls of a container. -/
inductive Op (H : Type)
  | newBlock (hash : H)
  | insertShard (hash : H) (idx : Nat) (data : Bytes)
  | getBlock (hash : H)
  | enough (hash : H)
  | remove (hash : H)

/-- The shards that are there. -/
def stored (shards : List Bytes) : Nat := shards.countP fun data => decide (data ≠ [])

/-- The counter of each block is the number of its shards that are there. -/
def Counted (sc : ShardsContainer H) : Prop :=
  ∀ h shards count, sc.shards h = some (shards, count) → count = stored shards

variable [DecidableEq H]

/-- One call; `get_block` and `enough` only read, and an index out of range is no call. -/
def apply (sc : ShardsContainer H) : Op H → Option (ShardsContainer H)
  | .newBlock hash => some (sc.newBlock hash)
  | .insertShard hash idx data =>
    match sc.insertShard hash idx data with
    | .ok (_, sc) => some sc
    | .error _ => none
  | .getBlock _ => some sc
  | .enough _ => some sc
  | .remove hash => some (sc.remove hash)

/-- No empty string is put at an empty place. -/
def fillsPlace (sc : ShardsContainer H) : Op H → Bool
  | .insertShard hash idx data => decide (data ≠ []) || decide (sc.shardAt hash idx ≠ [])
  | _ => true

variable {sc sc' : ShardsContainer H} {h : H} {idx n : Nat} {data : Bytes}

theorem stored_replicate (n : Nat) : stored (List.replicate n []) = 0 := by
  rw [stored, List.countP_eq_zero]
  intro x hx
  simp [List.eq_of_mem_replicate hx]

/-- The places without a shard are the others. -/
theorem stored_add_count (shards : List Bytes) : stored shards + shards.count [] = shards.length := by
  rw [stored, List.length_eq_countP_add_countP (fun data => decide (data ≠ ([] : Bytes))),
    List.count_eq_countP]
  congr 1
  apply List.countP_congr
  intro x _
  simp

theorem stored_set {shards : List Bytes} (hat : shards[idx]? = some []) (data : Bytes) :
    stored (shards.set idx data) = stored shards + if data ≠ [] then 1 else 0 := by
  obtain ⟨hlt, hget⟩ := List.getElem?_eq_some_iff.mp hat
  rw [stored, List.countP_set hlt, hget]
  simp [stored]

theorem newBlock_exact (hc : sc.Counted) (h : H) : (sc.newBlock h).Counted := by
  intro x shards count hx
  unfold newBlock at hx
  split at hx
  · exact hc x shards count hx
  · change Function.update sc.shards h _ x = _ at hx
    by_cases hxh : x = h
    · rw [hxh, Function.update_self] at hx
      obtain ⟨rfl, rfl⟩ := Prod.mk.inj (Option.some.inj hx)
      rw [stored_replicate]
    · rw [Function.update_of_ne hxh] at hx
      exact hc x shards count hx

/-- A call keeps the counters right exactly when it puts no empty string at an empty place. -/
theorem apply_counted (hc : sc.Counted) {op : Op H} (hstep : sc.apply op = some sc') :
    sc'.Counted ↔ sc.fillsPlace op = true := by
  cases op with
  | newBlock h =>
    obtain rfl := Option.some.inj hstep
    exact iff_of_true (newBlock_exact hc h) rfl
  | getBlock h =>
    obtain rfl := Option.some.inj hstep
    exact iff_of_true hc rfl
  | enough h =>
    obtain rfl := Option.some.inj hstep
    exact iff_of_true hc rfl
  | remove h =>
    obtain rfl := Option.some.inj hstep
    refine iff_of_true (fun x shards count hx => ?_) rfl
    change Function.update sc.shards h none x = _ at hx
    by_cases hxh : x = h
    · rw [hxh, Function.update_self] at hx
      cases hx
    · rw [Function.update_of_ne hxh] at hx
      exact hc x shards count hx
  | insertShard h idx data =>
    have hnew := newBlock_exact hc h
    simp only [apply] at hstep
    split at hstep
    · rename_i rc sc₁ hok
      obtain rfl := Option.some.inj hstep
      obtain ⟨shards, count, cur, hentry, hcur, ⟨hne, _, rfl⟩ | ⟨rfl, _, rfl⟩⟩ := insertShard_ok hok
      · refine iff_of_true hnew ?_
        simp [fillsPlace, shardAt_of_newBlock hentry hcur, hne]
      · have hat := shardAt_of_newBlock hentry hcur
        have hcount := hnew h shards count hentry
        have hset := stored_set hcur data
        simp only [fillsPlace, hat, ne_eq, not_true_eq_false, decide_false, Bool.or_false,
          decide_eq_true_eq]
        constructor
        · intro hc'
          have hbumped := hc' h (shards.set idx data) (count + 1) (by simp)
          by_contra hdata
          rw [hset, if_neg (not_not.mpr hdata)] at hbumped
          omega
        · intro hdata x shards' count' hx
          change Function.update (sc.newBlock h).shards h _ x = _ at hx
          by_cases hxh : x = h
          · rw [hxh, Function.update_self] at hx
            obtain ⟨rfl, rfl⟩ := Prod.mk.inj (Option.some.inj hx)
            rw [hset, if_pos hdata, hcount]
          · rw [Function.update_of_ne hxh] at hx
            exact hnew x shards' count' hx
    · cases hstep

theorem apply_sized (hs : sc.Sized n) {op : Op H} (hstep : sc.apply op = some sc') :
    sc'.Sized n ∧ sc'.threshold = sc.threshold := by
  cases op with
  | newBlock h =>
    obtain rfl := Option.some.inj hstep
    refine ⟨hs.newBlock h, ?_⟩
    unfold newBlock
    split <;> rfl
  | getBlock h =>
    obtain rfl := Option.some.inj hstep
    exact ⟨hs, rfl⟩
  | enough h =>
    obtain rfl := Option.some.inj hstep
    exact ⟨hs, rfl⟩
  | remove h =>
    obtain rfl := Option.some.inj hstep
    exact ⟨hs.update (fun x hx => by cases hx), rfl⟩
  | insertShard h idx data =>
    simp only [apply] at hstep
    split at hstep
    · rename_i rc sc₁ hok
      obtain rfl := Option.some.inj hstep
      refine ⟨hs.inserted hok, ?_⟩
      obtain he | ⟨_, _, heq, hthreshold, _⟩ := insertShard_cases sc h idx data
      · rw [he] at hok
        cases hok
      · rw [heq] at hok
        cases hok
        exact hthreshold
    · cases hstep

/-- The counter of shards: in every run of a container in which no empty string is put at an empty
place, the counter of a block is the number of its shards that are there, so `get_block` gives the
shards exactly when these reach the threshold, and no more are lost than the code restores. A call
that puts an empty string at an empty place makes the counter wrong. -/
theorem counter_exact (n : Nat) (h : Transition.Reaches apply (fun sc op => sc.fillsPlace op = true)
    (setParams n) sc) :
    (∀ h shards count, sc.shards h = some (shards, count) → count = stored shards ∧
      ((sc.getBlock h).1 = 0 ↔ sc.threshold ≤ stored shards) ∧
        ((sc.getBlock h).1 = 0 → (sc.getBlock h).2.count [] ≤ (RSE.setParams n).recoveryCount)) ∧
      ∀ op sc', sc.apply op = some sc' → (sc'.Counted ↔ sc.fillsPlace op = true) := by
  obtain ⟨hcounted, hsized, hthreshold⟩ : sc.Counted ∧ sc.Sized n ∧
      sc.threshold = n - (n - 1) / 3 := by
    apply Transition.Reaches.invariant h
    · exact ⟨fun _ _ _ he => (by cases he), ⟨rfl, fun _ _ he => (by cases he)⟩, rfl⟩
    · rintro sc op sc' ⟨hc, hs, ht⟩ hcond hstep
      obtain ⟨hs', ht'⟩ := apply_sized hs hstep
      exact ⟨(apply_counted hc hstep).mpr hcond, hs', ht'.trans ht⟩
  refine ⟨fun h shards count he => ?_, fun op sc' hstep => apply_counted hcounted hstep⟩
  have hcount := hcounted h shards count he
  have hgot : (sc.getBlock h).1 = 0 ↔ sc.threshold ≤ stored shards := by
    rw [getBlock, he, ← hcount]
    dsimp only
    split
    · rename_i hlt
      exact iff_of_false (by decide) (by omega)
    · rename_i hle
      exact iff_of_true rfl (by omega)
  refine ⟨hcount, hgot, fun hzero => ?_⟩
  have hlen : shards.length = n := hsized.places h _ he
  have hall := stored_add_count shards
  have hreached := hgot.mp hzero
  have hshards : (sc.getBlock h).2 = shards := by
    rw [getBlock, he]
    dsimp only
    rw [if_neg (by omega)]
  rw [hshards, RSE.setParams]
  dsimp only
  omega

end LibHotStuff.ShardsContainer

namespace LibHotStuff.Concrete

open ShardsContainer

/-- Three of four shards of block 1. -/
def threeInserted : List (Op Nat) := [.insertShard 1 0 [7], .insertShard 1 2 [8], .insertShard 1 3 [9]]

theorem inserted_run : (Transition.runBy ShardsContainer.apply (fun sc op => sc.fillsPlace op = true)
    (ShardsContainer.setParams 4) threeInserted).map (fun sc => sc.shards 1) =
      some (some ([[7], [], [8], [9]], 3)) := by
  decide +kernel

theorem counter_exact_three : ∃ sc : ShardsContainer Nat, sc.shards 1 = some ([[7], [], [8], [9]], 3) ∧
    3 = stored [[7], [], [8], [9]] := by
  obtain ⟨sc, hreach, hshards⟩ := Transition.runBy_map_reaches inserted_run
  exact ⟨sc, hshards, ((ShardsContainer.counter_exact 4 hreach).1 1 _ _ hshards).1⟩

/-- Three empty shards are counted, and `get_block` gives a vector of which every shard is lost. -/
theorem counter_wrong : (Transition.runBy ShardsContainer.apply (fun _ _ => True)
    (ShardsContainer.setParams 4)
      [.insertShard 1 0 [], .insertShard 1 1 [], .insertShard 1 2 []]).map
        (fun sc => (sc.shards 1, sc.getBlock 1)) =
      some (some ([[], [], [], []], 3), (0, [[], [], [], []])) ∧
    stored [[], [], [], []] = 0 := by
  decide +kernel

end LibHotStuff.Concrete
