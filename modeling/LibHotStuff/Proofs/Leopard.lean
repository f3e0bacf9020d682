import LibHotStuff.Model.Rse
import Mathlib

namespace LibHotStuff

/-- What is left of some buffers: each is there or lost. -/
def Kept {α : Type} : List (Option α) → List α → Prop :=
  List.Forall₂ fun x y => x = none ∨ x = some y

/-- Leopard is a correct MDS code for these counts on buffers of equal length: from any `m`
losses it restores every lost original. -/
structure Leopard.Mds (leo : Leopard) (k m : Nat) : Prop where
  decodeWork : leo.decodeWorkCount k m ≠ 0
  workLength : ∀ b orig work, orig.length = k → (∀ x ∈ orig, x.length = b) →
    leo.encode b k m (leo.encodeWorkCount k m) orig = (0, work) → ∀ x ∈ work, x.length = b
  recovers : ∀ b orig work orig' recv', orig.length = k → (∀ x ∈ orig, x.length = b) →
    leo.encode b k m (leo.encodeWorkCount k m) orig = (0, work) →
    Kept orig' orig → Kept recv' (work.take m) → orig'.count none + recv'.count none ≤ m →
    ∃ out : List Bytes, leo.decode b k m (leo.decodeWorkCount k m) orig' recv' = (0, out) ∧
      ∀ i : Nat, orig'[i]? = some none → out[i]? = orig[i]?

/-- Bytewise exclusive or. -/
def xorBytes (x y : Bytes) : Bytes := List.zipWith (· ^^^ ·) x y

/-- The exclusive or of some buffers of `b` bytes. -/
def parity (b : Nat) (bufs : List Bytes) : Bytes := bufs.foldr xorBytes (List.replicate b 0)

/-- The code with one parity buffer, for any number of originals. -/
def xorLeopard : Leopard where
  encodeWorkCount k _ := k + 1
  decodeWorkCount k _ := k + 1
  encode b _ m _ orig := if m = 1 then (0, [parity b orig]) else (-4, [])
  decode b _ m _ orig recv :=
    if m = 1 then (0, orig.map fun x => x.getD (parity b ((orig ++ recv).filterMap id)))
    else (-4, [])

section Xor

variable {b : Nat} {x y z : Bytes}

theorem xorBytes_length (hx : x.length = b) (hy : y.length = b) : (xorBytes x y).length = b := by
  rw [xorBytes, List.length_zipWith, hx, hy, Nat.min_self]

theorem xorBytes_comm : xorBytes x y = xorBytes y x :=
  List.zipWith_comm_of_comm UInt8.xor_comm

theorem xorBytes_assoc : xorBytes (xorBytes x y) z = xorBytes x (xorBytes y z) := by
  induction x generalizing y z with
  | nil => simp [xorBytes]
  | cons a x ih =>
    cases y with
    | nil => simp [xorBytes]
    | cons c y =>
      cases z with
      | nil => simp [xorBytes]
      | cons d z =>
        have hrest := ih (y := y) (z := z)
        simp only [xorBytes] at hrest
        simp [xorBytes, UInt8.xor_assoc, hrest]

theorem xorBytes_zero (hx : x.length = b) : xorBytes x (List.replicate b 0) = x := by
  subst hx
  induction x with
  | nil => rfl
  | cons a x ih =>
    simp only [xorBytes] at ih
    simp [xorBytes, List.replicate_succ, ih]

theorem xorBytes_self (hx : x.length = b) : xorBytes x x = List.replicate b 0 := by
  subst hx
  induction x with
  | nil => rfl
  | cons a x ih =>
    simp only [xorBytes] at ih
    rw [xorBytes, List.zipWith_cons_cons, ih, UInt8.xor_self]
    rfl

theorem parity_length {bufs : List Bytes} (h : ∀ x ∈ bufs, x.length = b) :
    (parity b bufs).length = b := by
  induction bufs with
  | nil => simp [parity]
  | cons x bufs ih =>
    have hrest := ih fun y hy => h y (List.mem_cons_of_mem _ hy)
    exact xorBytes_length (h x List.mem_cons_self) hrest

theorem parity_append {bufs bufs' : List Bytes} (h : ∀ x ∈ bufs', x.length = b) :
    parity b (bufs ++ bufs') = xorBytes (parity b bufs) (parity b bufs') := by
  induction bufs with
  | nil =>
    rw [List.nil_append, show parity b [] = List.replicate b 0 from rfl, xorBytes_comm,
      xorBytes_zero (parity_length h)]
  | cons x bufs ih =>
    change xorBytes x (parity b (bufs ++ bufs')) = _
    rw [ih, ← xorBytes_assoc]
    rfl

end Xor

/-- With nothing lost, what is kept are the buffers themselves. -/
theorem Kept.filterMap_eq {kept : List (Option Bytes)} {bufs : List Bytes}
    (h : Kept kept bufs) (hall : kept.count none = 0) : kept.filterMap id = bufs := by
  induction h with
  | nil => rfl
  | @cons o x kept bufs hox _ ih =>
    rcases hox with rfl | rfl
    · simp at hall
    · rw [List.count_cons_of_ne (by simp)] at hall
      exact congrArg (x :: ·) (ih hall)

/-- The parity of what is kept and the one lost buffer make up the parity of all. -/
theorem parity_lost {kept : List (Option Bytes)} {bufs : List Bytes} {b i : Nat} {x : Bytes}
    (h : Kept kept bufs) (hlen : ∀ y ∈ bufs, y.length = b) (hone : kept.count none ≤ 1)
    (hlost : kept[i]? = some none) (hx : bufs[i]? = some x) :
    xorBytes x (parity b (kept.filterMap id)) = parity b bufs := by
  induction h generalizing i with
  | nil => simp at hlost
  | @cons o y kept bufs hoy hrest ih =>
    have hlen' := fun z hz => hlen z (List.mem_cons_of_mem _ hz)
    cases i with
    | zero =>
      obtain rfl : o = none := by simpa using hlost
      obtain rfl : y = x := by simpa using hx
      rw [List.count_cons_self] at hone
      rw [List.filterMap_cons_none rfl, Kept.filterMap_eq hrest (by omega)]
      rfl
    | succ i =>
      have hlost' : kept[i]? = some none := by simpa using hlost
      have hx' : bufs[i]? = some x := by simpa using hx
      have hpos : 0 < kept.count none := List.count_pos_iff.mpr (List.mem_of_getElem? hlost')
      rcases hoy with rfl | rfl
      · rw [List.count_cons_self] at hone
        omega
      · rw [List.count_cons_of_ne (by simp)] at hone
        have hi := ih hlen' hone hlost' hx'
        change xorBytes x (xorBytes y _) = xorBytes y (parity b bufs)
        rw [← hi, ← xorBytes_assoc, ← xorBytes_assoc, xorBytes_comm (x := x)]
        rfl

/-- One parity buffer restores any one loss. -/
theorem xorLeopard_mds (k : Nat) : xorLeopard.Mds k 1 where
  decodeWork := Nat.succ_ne_zero k
  workLength := by
    intro b orig work _ hlen henc x hx
    obtain rfl : work = [parity b orig] := by simpa [xorLeopard] using henc.symm
    obtain rfl : x = parity b orig := by simpa using hx
    exact parity_length hlen
  recovers := by
    intro b orig work orig' recv' _ hlen henc ho hr hcount
    obtain rfl : work = [parity b orig] := by simpa [xorLeopard] using henc.symm
    refine ⟨_, rfl, ?_⟩
    intro i hi
    have hpos : 0 < orig'.count none := List.count_pos_iff.mpr (List.mem_of_getElem? hi)
    have hrecv : recv'.filterMap id = [parity b orig] := Kept.filterMap_eq hr (by omega)
    have hlt : i < orig.length := by
      rw [← ho.length_eq]
      exact (List.getElem?_eq_some_iff.mp hi).1
    have hx := List.getElem?_eq_getElem hlt
    have hxlen : orig[i].length = b := hlen _ (List.getElem_mem hlt)
    have hsum := parity_lost ho hlen (by omega) hi hx
    have hplen := parity_length hlen
    have hparity : parity b ((orig' ++ recv').filterMap id) = orig[i] := by
      have hkept : (parity b (orig'.filterMap id)).length = b := by
        refine parity_length fun y hy => ?_
        obtain ⟨o, hmem, rfl⟩ := List.mem_filterMap.mp hy
        obtain ⟨j, hj, hje⟩ := List.getElem_of_mem hmem
        have hrel := ho.get hj (by rw [← ho.length_eq]; exact hj)
        simp only [List.get_eq_getElem, hje] at hrel
        rcases hrel with h | h
        · cases h
        · rw [Option.some.inj h]
          exact hlen _ (List.getElem_mem _)
      have hone : parity b [parity b orig] = parity b orig := xorBytes_zero hplen
      rw [List.filterMap_append, hrecv, parity_append (by simpa using hplen), hone, ← hsum,
        xorBytes_comm, xorBytes_assoc, xorBytes_self hkept, xorBytes_zero hxlen]
    rw [hx, List.getElem?_map, hi]
    simp only [Option.map_some, Option.getD_none, hparity]

end LibHotStuff
