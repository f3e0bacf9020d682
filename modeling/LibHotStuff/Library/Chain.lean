import Mathlib

/-! Chains given by a partial parent function: ancestors, depths below a root, and the list of
the blocks on a chain. -/

namespace LibHotStuff.Chain

variable {α : Type*} (parent : α → Option α)

/-- The ancestor `k` steps up. -/
def up : Nat → α → Option α
  | 0, a => some a
  | k + 1, a => (parent a).bind (up k)

/-- The first `k` elements of the chain of `a`, from `a` on. -/
def path : Nat → α → List α
  | 0, _ => []
  | k + 1, a => a :: ((parent a).map (path k)).getD []

/-- `b` is `a` or one of its ancestors. -/
def OnChain (a b : α) : Prop := ∃ k, up parent k a = some b

/-- The number of steps from `a` up to `root`; zero when there is no such chain. -/
noncomputable def depth (root a : α) : Nat :=
  open Classical in if h : ∃ k, up parent k a = some root then h.choose else 0

variable {parent}

@[simp] theorem up_zero (a : α) : up parent 0 a = some a := rfl

theorem up_succ (k : Nat) (a : α) : up parent (k + 1) a = (parent a).bind (up parent k) := rfl

theorem up_add (i j : Nat) (a : α) :
    up parent (i + j) a = (up parent i a).bind (up parent j) := by
  induction i generalizing a with
  | zero => simp
  | succ i ih =>
    rw [show i + 1 + j = (i + j) + 1 by omega, up_succ, up_succ, Option.bind_assoc]
    exact Option.bind_congr fun b _ => ih b

theorem up_one {a p : α} (h : parent a = some p) : up parent 1 a = some p := by
  rw [up_succ, h]
  rfl

theorem OnChain.refl (a : α) : OnChain parent a a := ⟨0, rfl⟩

theorem OnChain.of_parent {a p : α} (h : parent a = some p) : OnChain parent a p := ⟨1, up_one h⟩

theorem OnChain.trans {a b c : α} (hab : OnChain parent a b) (hbc : OnChain parent b c) :
    OnChain parent a c := by
  obtain ⟨i, hi⟩ := hab
  obtain ⟨j, hj⟩ := hbc
  exact ⟨i + j, by rw [up_add, hi]; exact hj⟩

section Root

variable {root : α} (hroot : parent root = none)
include hroot

theorem up_root {k : Nat} {b : α} (h : up parent k root = some b) : k = 0 ∧ b = root := by
  cases k with
  | zero => exact ⟨rfl, by simpa using h.symm⟩
  | succ k => simp [up_succ, hroot] at h

theorem up_to_root_le {a b : α} {i k : Nat} (hk : up parent k a = some root)
    (hi : up parent i a = some b) : i ≤ k ∧ up parent (k - i) b = some root := by
  have hle : i ≤ k := by
    by_contra hlt
    have hsplit : i = k + (i - k) := by omega
    rw [hsplit, up_add, hk] at hi
    have := (up_root hroot hi).1
    omega
  refine ⟨hle, ?_⟩
  have hsplit : k = i + (k - i) := by omega
  rw [hsplit, up_add, hi] at hk
  exact hk

theorem depth_eq {a : α} {k : Nat} (hk : up parent k a = some root) :
    depth parent root a = k := by
  have hex : ∃ k, up parent k a = some root := ⟨k, hk⟩
  have hc := hex.choose_spec
  have h1 := (up_to_root_le hroot hk hc).1
  have h2 := (up_to_root_le hroot hc hk).1
  rw [depth, dif_pos hex]
  omega

theorem depth_root : depth parent root root = 0 := depth_eq hroot rfl

theorem up_depth {a : α} (h : OnChain parent a root) :
    up parent (depth parent root a) a = some root := by
  obtain ⟨k, hk⟩ := h
  rwa [depth_eq hroot hk]

theorem eq_root_of_depth {a : α} (h : OnChain parent a root) (hz : depth parent root a = 0) :
    a = root := by
  have hu := up_depth hroot h
  rw [hz] at hu
  simpa using hu

theorem depth_parent {a p : α} (h : OnChain parent p root) (hp : parent a = some p) :
    depth parent root a = depth parent root p + 1 := by
  apply depth_eq hroot
  rw [Nat.add_comm, up_add, up_one hp]
  exact up_depth hroot h

theorem depth_up {a b : α} {i : Nat} (h : up parent i a = some b) (ha : OnChain parent a root) :
    depth parent root b + i = depth parent root a := by
  obtain ⟨hle, hb⟩ := up_to_root_le hroot (up_depth hroot ha) h
  rw [depth_eq hroot hb, Nat.sub_add_cancel hle]

/-- An ancestor of a rooted block is rooted, and is found at the difference of the depths. -/
theorem OnChain.up_sub {a b : α} (hab : OnChain parent a b) (ha : OnChain parent a root) :
    OnChain parent b root ∧ depth parent root b ≤ depth parent root a ∧
      up parent (depth parent root a - depth parent root b) a = some b := by
  obtain ⟨i, hi⟩ := hab
  obtain ⟨hle, hb⟩ := up_to_root_le hroot (up_depth hroot ha) hi
  have hd := depth_eq hroot hb
  refine ⟨⟨_, hb⟩, by omega, ?_⟩
  rwa [hd, Nat.sub_sub_self hle]

theorem OnChain.eq_of_depth {a b : α} (hab : OnChain parent a b) (ha : OnChain parent a root)
    (h : depth parent root a = depth parent root b) : a = b := by
  have hu := (hab.up_sub hroot ha).2.2
  rw [h, Nat.sub_self] at hu
  simpa using hu

/-- Two ancestors of one block lie on one chain. -/
theorem OnChain.linear {a b c : α} (hab : OnChain parent a b) (hac : OnChain parent a c)
    (ha : OnChain parent a root) (h : depth parent root c ≤ depth parent root b) :
    OnChain parent b c := by
  obtain ⟨_, hb, hub⟩ := hab.up_sub hroot ha
  obtain ⟨_, hc, huc⟩ := hac.up_sub hroot ha
  refine ⟨depth parent root b - depth parent root c, ?_⟩
  have hsplit : depth parent root a - depth parent root c =
      (depth parent root a - depth parent root b) +
        (depth parent root b - depth parent root c) := by omega
  rw [hsplit, up_add, hub] at huc
  exact huc

end Root

theorem path_add {a b : α} {i : Nat} (h : up parent i a = some b) (j : Nat) :
    path parent (i + j) a = path parent i a ++ path parent j b := by
  induction i generalizing a with
  | zero =>
    have hb : a = b := by simpa using h
    simp [path, hb]
  | succ i ih =>
    rw [up_succ] at h
    obtain ⟨p, hp, hu⟩ := Option.bind_eq_some_iff.mp h
    rw [show i + 1 + j = (i + j) + 1 by omega]
    simp [path, hp, ih hu]

theorem path_length {a b : α} {k : Nat} (h : up parent k a = some b) :
    (path parent k a).length = k := by
  induction k generalizing a with
  | zero => rfl
  | succ k ih =>
    rw [up_succ] at h
    obtain ⟨p, hp, hu⟩ := Option.bind_eq_some_iff.mp h
    simp [path, hp, ih hu]

/-- The element at position `i` of a path is the ancestor `i` steps up. -/
theorem path_getElem? {a b : α} {k : Nat} (h : up parent k a = some b) {i : Nat} (hi : i < k) :
    (path parent k a)[i]? = up parent i a := by
  induction k generalizing a i with
  | zero => omega
  | succ k ih =>
    rw [up_succ] at h
    obtain ⟨p, hp, hu⟩ := Option.bind_eq_some_iff.mp h
    cases i with
    | zero => simp [path]
    | succ i => simpa [path, hp, up_succ] using ih hu (by omega)

theorem reverse_path_getElem? {a b : α} {k : Nat} (h : up parent k a = some b) {i : Nat}
    (hi : i < k) : (path parent k a).reverse[i]? = up parent (k - 1 - i) a := by
  have hlen := path_length h
  rw [List.getElem?_reverse (by omega), hlen]
  exact path_getElem? h (by omega)

theorem mem_path {a b x : α} {k : Nat} (h : up parent k a = some b) :
    x ∈ path parent k a ↔ ∃ i < k, up parent i a = some x := by
  constructor
  · intro hx
    obtain ⟨i, hlt, he⟩ := List.getElem_of_mem hx
    have hi : i < k := by rwa [path_length h] at hlt
    refine ⟨i, hi, ?_⟩
    rw [← path_getElem? h hi, List.getElem?_eq_getElem hlt, he]
  · rintro ⟨i, hi, hu⟩
    rw [← path_getElem? h hi] at hu
    exact List.mem_of_getElem? hu

theorem onChain_of_mem_path {a x : α} {k : Nat} (h : x ∈ path parent k a) : OnChain parent a x := by
  induction k generalizing a with
  | zero => cases h
  | succ k ih =>
    rw [path, List.mem_cons] at h
    obtain rfl | h := h
    · exact .refl x
    · cases hp : parent a with
      | none => simp [hp] at h
      | some p =>
        rw [hp] at h
        exact (OnChain.of_parent hp).trans (ih h)

/-- Down a path come ancestors of the parents. -/
theorem path_ancestors (k : Nat) (a : α) : (path parent k a).Pairwise fun x y =>
    ∃ p, parent x = some p ∧ OnChain parent p y := by
  induction k generalizing a with
  | zero => exact List.Pairwise.nil
  | succ k ih =>
    rw [path, List.pairwise_cons]
    cases hp : parent a with
    | none => exact ⟨nofun, List.Pairwise.nil⟩
    | some p => exact ⟨fun x hx => ⟨p, rfl, onChain_of_mem_path hx⟩, ih p⟩

/-- Down a path the depths decrease. -/
theorem path_pairwise {root a b : α} (hroot : parent root = none) {k : Nat}
    (h : up parent k a = some b) (ha : OnChain parent a root) :
    (path parent k a).Pairwise fun x y => depth parent root y < depth parent root x := by
  induction k generalizing a with
  | zero => exact List.Pairwise.nil
  | succ k ih =>
    rw [up_succ] at h
    obtain ⟨p, hp, hu⟩ := Option.bind_eq_some_iff.mp h
    have hpr := ((OnChain.of_parent hp).up_sub hroot ha).1
    have hd := depth_parent hroot hpr hp
    have hpath : path parent (k + 1) a = a :: path parent k p := by simp [path, hp]
    rw [hpath, List.pairwise_cons]
    refine ⟨fun x hx => ?_, ih hu hpr⟩
    obtain ⟨i, _, hi⟩ := (mem_path hu).mp hx
    have := (OnChain.up_sub hroot ⟨i, hi⟩ hpr).2.1
    omega

/-- The chain of an ancestor, from the root on, is a prefix of the chain of the block. -/
theorem OnChain.path_prefix {root a b : α} (hroot : parent root = none)
    (hab : OnChain parent a b) (ha : OnChain parent a root) :
    (path parent (depth parent root b) b).reverse <+:
      (path parent (depth parent root a) a).reverse := by
  obtain ⟨_, hle, hu⟩ := hab.up_sub hroot ha
  have hsplit := path_add hu (depth parent root b)
  rw [Nat.sub_add_cancel hle] at hsplit
  rw [hsplit, List.reverse_append]
  exact List.prefix_append _ _

/-- A list of blocks, the newest first, each of which comes after its parent. -/
def Founded (parent : α → Option α) (root : α) : List α → Prop
  | [] => True
  | a :: rest => (a = root ∨ ∃ p, parent a = some p ∧ (p = root ∨ p ∈ rest)) ∧ Founded parent root rest

theorem Founded.onChain {root a : α} {l : List α} (h : Founded parent root l) (ha : a ∈ l) :
    OnChain parent a root := by
  induction l generalizing a with
  | nil => cases ha
  | cons b l ih =>
    obtain rfl | ha := List.mem_cons.mp ha
    · obtain rfl | ⟨p, hp, rfl | hmem⟩ := h.1
      · exact .refl a
      · exact .of_parent hp
      · exact (OnChain.of_parent hp).trans (ih h.2 hmem)
    · exact ih h.2 ha

/-- The chain of such a block is in the order of the list. -/
theorem Founded.path_sublist {root a : α} (hroot : parent root = none) {l : List α}
    (h : Founded parent root l) (ha : a ∈ l) :
    (path parent (depth parent root a) a).reverse.Sublist l.reverse := by
  induction l generalizing a with
  | nil => cases ha
  | cons b l ih =>
    rw [List.reverse_cons]
    by_cases hold : a ∈ l
    · exact (ih h.2 hold).trans (List.sublist_append_left _ _)
    obtain rfl : a = b := (List.mem_cons.mp ha).resolve_right hold
    obtain rfl | ⟨p, hp, hfound⟩ := h.1
    · rw [depth_root hroot]
      exact List.nil_sublist _
    have hpr : OnChain parent p root := by
      obtain rfl | hmem := hfound
      · exact .refl p
      · exact h.2.onChain hmem
    have hpath : path parent (depth parent root p + 1) a = a :: path parent (depth parent root p) p := by
      simp [path, hp]
    rw [depth_parent hroot hpr hp, hpath, List.reverse_cons]
    refine List.Sublist.append ?_ (List.Sublist.refl _)
    obtain rfl | hmem := hfound
    · rw [depth_root hroot]
      exact List.nil_sublist _
    · exact ih h.2 hmem

end LibHotStuff.Chain
