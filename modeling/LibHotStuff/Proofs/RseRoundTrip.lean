import LibHotStuff.Proofs.Leopard
import Mathlib

namespace LibHotStuff

/-- The buffers as `decode` is given them: a lost one is empty. -/
def Surviving : List Bytes → List Bytes → Prop :=
  List.Forall₂ fun t x => t = [] ∨ t = x

theorem le64_length (v : Nat) : (le64 v).length = 8 := by simp [le64]

private theorem uint8_ofNat_toNat (v : Nat) : (UInt8.ofNat v).toNat = v % 256 := by
  simp

theorem readLe_le64 {v : Nat} (h : v < 2 ^ 64) : readLe (le64 v) = v := by
  simp only [le64, show List.range 8 = [0, 1, 2, 3, 4, 5, 6, 7] from rfl, List.map_cons,
    List.map_nil, readLe, uint8_ofNat_toNat]
  omega

theorem readLe_replicate_zero (j : Nat) : readLe (List.replicate j 0) = 0 := by
  induction j with
  | zero => rfl
  | succ j ih => simp [List.replicate_succ, readLe, ih]

/-- The bytes above the first of a small number are zero. -/
theorem le64_small {v : Nat} (h : v < 256) :
    le64 v = UInt8.ofNat v :: List.replicate 7 0 := by
  have hz : ∀ i, 1 ≤ i → UInt8.ofNat (v / 256 ^ i) = 0 := by
    intro i hi
    have hp : 256 ^ 1 ≤ 256 ^ i := Nat.pow_le_pow_right (by omega) hi
    rw [Nat.div_eq_of_lt (by omega)]
    rfl
  simp only [le64, show List.range 8 = [0, 1, 2, 3, 4, 5, 6, 7] from rfl, List.map_cons,
    List.map_nil, Nat.pow_zero, Nat.div_one, hz 1 (by omega), hz 2 (by omega), hz 3 (by omega),
    hz 4 (by omega), hz 5 (by omega), hz 6 (by omega), hz 7 (by omega),
    show (List.replicate 7 (0 : UInt8)) = [0, 0, 0, 0, 0, 0, 0] from rfl]

/-- Cut after its first byte and padded with zeros, a small number is unchanged. -/
theorem le64_take_pad {v j : Nat} (hv : v < 256) (h1 : 1 ≤ j) (h8 : j ≤ 8) :
    (le64 v).take j ++ List.replicate (8 - j) 0 = le64 v := by
  obtain ⟨j, rfl⟩ : ∃ i, j = i + 1 := ⟨j - 1, by omega⟩
  rw [le64_small hv, List.take_succ_cons, List.take_replicate, List.cons_append,
    ← List.replicate_add]
  congr 2
  omega

/-- Consecutive slices of equal size make up the whole. -/
theorem flatMap_slices (s : Nat) :
    ∀ (k : Nat) (l : Bytes), l.length = s * k →
      (List.range k).flatMap (fun i => (l.drop (i * s)).take s) = l := by
  intro k
  induction k with
  | zero =>
    intro l hl
    simpa using (List.eq_nil_of_length_eq_zero (by simpa using hl)).symm
  | succ k ih =>
    intro l hl
    have hd : (l.drop s).length = s * k := by
      rw [List.length_drop, hl, Nat.mul_succ]
      omega
    have hrest := ih (l.drop s) hd
    rw [List.range_succ_eq_map, List.flatMap_cons, List.flatMap_map]
    have hshift : (fun i => (l.drop ((i + 1) * s)).take s) =
        fun i => ((l.drop s).drop (i * s)).take s := by
      funext i
      rw [List.drop_drop, Nat.succ_mul, Nat.add_comm]
    rw [hshift, hrest]
    simp

namespace RSE

variable {leo : Leopard} {r : RSE}

theorem bufferBytes_dvd (s : Nat) : bufferBytes s % 64 = 0 := by simp [bufferBytes]

theorem le_bufferBytes (s : Nat) : s ≤ bufferBytes s := by
  simp only [bufferBytes]
  omega

theorem bufferBytes_pos {s : Nat} (h : 0 < s) : 64 ≤ bufferBytes s := by
  simp only [bufferBytes]
  omega

theorem inputData_length {input : Bytes} {s total : Nat} (h : 16 + input.length ≤ total) :
    (inputData input s total).length = total := by
  simp only [inputData, List.length_append, le64_length, List.length_replicate]
  omega

theorem inputData_drop {input : Bytes} {s total : Nat} :
    ((inputData input s total).drop 16).take input.length = input := by
  have h16 : (le64 input.length ++ le64 s).length = 16 := by simp [le64_length]
  rw [inputData, List.append_assoc, List.drop_append_of_le_length (by omega),
    List.drop_of_length_le (by omega), List.nil_append, List.take_append_of_le_length (by omega),
    List.take_length]

theorem inputData_take {input : Bytes} {s total : Nat} :
    (inputData input s total).take 16 = le64 input.length ++ le64 s := by
  have h16 : (le64 input.length ++ le64 s).length = 16 := by simp [le64_length]
  rw [inputData, List.append_assoc, List.take_append_of_le_length (by omega),
    List.take_of_length_le (by omega)]

/-- The bytes of the originals that `decode` puts together. -/
def joined (sliceBytes : Nat) (O : List Bytes) : Bytes := O.flatMap (·.take sliceBytes)

theorem joined_take_succ {O : List Bytes} {sl i : Nat} {x : Bytes} (h : O[i]? = some x) :
    joined sl (O.take (i + 1)) = joined sl (O.take i) ++ x.take sl := by
  simp [joined, List.take_add_one, h]

theorem lastSize_eq {T : List Bytes} {b : Nat} (hT : ∀ x ∈ T, x = [] ∨ x.length = b)
    (hne : ∃ x ∈ T, x ≠ []) : lastSize T = b := by
  have hfold : ∀ (T : List Bytes) (a : Nat), (∀ x ∈ T, x = [] ∨ x.length = b) →
      (a = b ∨ ∃ x ∈ T, x ≠ []) →
      T.foldl (fun b s => if s.length ≠ 0 then s.length else b) a = b := by
    intro T
    induction T with
    | nil => simp
    | cons x T ih =>
      intro a hall hor
      rw [List.foldl_cons]
      apply ih _ fun y hy => hall y (List.mem_cons_of_mem _ hy)
      rcases hall x List.mem_cons_self with rfl | hx
      · simpa using hor
      · by_cases h0 : x.length = 0
        · have hnil := List.eq_nil_of_length_eq_zero h0
          subst hnil
          simpa using hor
        · exact Or.inl (by rw [if_pos h0, hx])
  exact hfold T 0 hT (Or.inr hne)

section Decode

variable {O R T : List Bytes} {b : Nat} (hO : ∀ x ∈ O, x.length = b)
  (hT : Surviving T (O ++ R))
include hO hT

theorem surviving_original {i : Nat} (hi : i < O.length) :
    ∃ x, O[i]? = some x ∧ x.length = b ∧ (T[i]? = some [] ∨ T[i]? = some x) := by
  have hx := List.getElem?_eq_getElem hi
  have hOR : (O ++ R)[i]? = some O[i] := by rw [List.getElem?_append_left hi, hx]
  have hlen := hT.length_eq
  have hti : i < T.length := by
    rw [hlen, List.length_append]
    omega
  have hrel := hT.get hti (by rw [← hlen]; exact hti)
  simp only [List.get_eq_getElem, List.getElem_append_left hi] at hrel
  refine ⟨O[i], hx, hO _ (List.getElem_mem hi), ?_⟩
  rw [List.getElem?_eq_getElem hti]
  rcases hrel with h | h <;> simp [h]

variable (hb : 0 < b)
include hb

/-- The first loop stops at a lost original or after the last one. -/
theorem appendPresent_eq {sl : Nat} (hsl : sl ≤ b) (left i : Nat) (hi : i + left = O.length) :
    ∃ i', appendPresent T sl left i (joined sl (O.take i)) =
        .ok (i', joined sl (O.take i')) ∧ i ≤ i' ∧ i' ≤ O.length ∧
      (i' = O.length ∨ T[i']? = some []) := by
  induction left generalizing i with
  | zero => exact ⟨i, rfl, le_refl _, by omega, Or.inl (by omega)⟩
  | succ left ih =>
    obtain ⟨x, hx, hlen, hor⟩ := surviving_original hO hT (i := i) (by omega)
    rcases hor with h | h
    · exact ⟨i, by simp [appendPresent, h], le_refl _, by omega, Or.inr h⟩
    · obtain ⟨i', heq, hle, hle', hend⟩ := ih (i + 1) (by omega)
      refine ⟨i', ?_, by omega, hle', hend⟩
      rw [joined_take_succ hx] at heq
      simp only [appendPresent, h]
      rw [if_neg (by omega), if_neg (by omega), heq]

/-- The last loop completes the originals. -/
theorem appendRecovered_eq {work : List Bytes} {sl : Nat} (hsl : sl ≤ b)
    (hwork : ∀ i, T[i]? = some [] → i < O.length → work[i]? = O[i]?) (left i : Nat)
    (hi : i + left = O.length) :
    appendRecovered T work sl left i (joined sl (O.take i)) = .ok (joined sl O) := by
  induction left generalizing i with
  | zero => rw [appendRecovered, List.take_of_length_le (by omega)]
  | succ left ih =>
    obtain ⟨x, hx, hlen, hor⟩ := surviving_original hO hT (i := i) (by omega)
    have hrest := ih (i + 1) (by omega)
    rw [joined_take_succ hx] at hrest
    rcases hor with h | h
    · have hw := hwork i h (by omega)
      rw [hx] at hw
      simp only [appendRecovered, h, hw, List.length_nil, if_true]
      rw [if_neg (by omega), hrest]
    · simp only [appendRecovered, h]
      rw [if_neg (by omega), if_neg (by omega), hrest]

end Decode

/-- The pointer that `decode` passes for a shard. -/
def pointer (s : Bytes) : Option Bytes := if s.length = 0 then none else some s

theorem loadBuffer_eq {T : List Bytes} {b i : Nat} {x : Bytes} (hx : T[i]? = some x)
    (hb : x = [] ∨ x.length = b) : loadBuffer T b i = .ok (pointer x) := by
  simp only [loadBuffer, hx, pointer]
  rcases hb with rfl | rfl
  · simp
  · by_cases h0 : x.length = 0
    · rw [if_pos h0, if_pos h0]
    · rw [if_neg h0, if_neg h0, if_neg (by omega), List.take_length]

theorem mapM_range_eq {β : Type} {f : Nat → Except Fault β} (L : List β)
    (h : ∀ i (hi : i < L.length), f i = .ok (L.get ⟨i, hi⟩)) :
    (List.range L.length).mapM f = .ok L := by
  induction L generalizing f with
  | nil => rfl
  | cons a L ih =>
    have h0 : f 0 = .ok a := h 0 (by simp)
    have hrest : (List.range L.length).mapM (fun i => f (i + 1)) = .ok L :=
      ih fun i hi => h (i + 1) (by simpa using hi)
    rw [List.length_cons, List.range_succ_eq_map, List.mapM_cons, h0, List.mapM_map]
    exact congrArg (fun t => t >>= fun r => pure (a :: r)) hrest

theorem kept_pointer {T O : List Bytes} (h : Surviving T O) (hne : ∀ x ∈ O, x ≠ []) :
    Kept (T.map pointer) O := by
  induction h with
  | nil => exact .nil
  | @cons t x T O htx _ ih =>
    refine .cons ?_ (ih fun y hy => hne y (List.mem_cons_of_mem _ hy))
    rcases htx with rfl | rfl
    · exact Or.inl rfl
    · have := hne t List.mem_cons_self
      exact Or.inr (by simp [pointer, this])

theorem count_pointer (T : List Bytes) : (T.map pointer).count none = T.count [] := by
  induction T with
  | nil => rfl
  | cons t T ih =>
    cases t <;> simp [pointer, ih]

section Recover

variable {O T₁ T₂ work : List Bytes} {b : Nat}
  (mds : leo.Mds r.originalCount r.recoveryCount)
  (hk : O.length = r.originalCount) (hk0 : 0 < r.originalCount)
  (hm : r.recoveryCount ≤ work.length)
  (hb : 64 ≤ b) (hO : ∀ x ∈ O, x.length = b)
  (henc : leo.encode b r.originalCount r.recoveryCount
    (leo.encodeWorkCount r.originalCount r.recoveryCount) O = (0, work))
  (h₁ : Surviving T₁ O) (h₂ : Surviving T₂ (work.take r.recoveryCount))
  (hloss : (T₁ ++ T₂).count [] ≤ r.recoveryCount)
include mds hk hO henc h₁ h₂

theorem surviving_sizes : ∀ x ∈ T₁ ++ T₂, x = [] ∨ x.length = b := by
  have hsize {T U : List Bytes} (h : Surviving T U) (hU : ∀ x ∈ U, x.length = b) :
      ∀ x ∈ T, x = [] ∨ x.length = b := by
    induction h with
    | nil => simp
    | @cons t u T U htu _ ih =>
      intro x hx
      rcases List.mem_cons.mp hx with rfl | hx
      · exact htu.imp id fun h => by rw [h, hU u List.mem_cons_self]
      · exact ih (fun y hy => hU y (List.mem_cons_of_mem _ hy)) x hx
  intro x hx
  rcases List.mem_append.mp hx with hx | hx
  · exact hsize h₁ hO x hx
  · have hw := mds.workLength b O work hk hO henc
    exact hsize h₂ (fun y hy => hw y (List.mem_of_mem_take hy)) x hx

include hk0 hm hb hloss

/-- The recovered path completes what the first loop has put together. -/
theorem recover_eq {d sl lost : Nat} {header : Option (Nat × Nat)}
    (hhead : readHeader ((O[0]?).getD []) = .ok (d, sl)) (hsl : sl ≤ b)
    (hheader : header = some (d, sl) ∨ header = none ∧ T₁[0]? = some [])
    (hlost : lost ≤ r.originalCount) :
    recover leo r (T₁ ++ T₂) b lost header (joined sl (O.take lost)) =
      (cutOutput d (joined sl O)).map fun out => (0, out) := by
  have hsizes := surviving_sizes mds hk hO henc h₁ h₂
  have hl₁ : T₁.length = r.originalCount := by rw [h₁.length_eq, hk]
  have hl₂ : T₂.length = r.recoveryCount := by
    rw [h₂.length_eq, List.length_take]
    omega
  have horig : (List.range r.originalCount).mapM (loadBuffer (T₁ ++ T₂) b) =
      .ok (T₁.map pointer) := by
    have := mapM_range_eq (f := loadBuffer (T₁ ++ T₂) b) (T₁.map pointer) fun i hi => by
      rw [List.length_map] at hi
      have hx : (T₁ ++ T₂)[i]? = some T₁[i] := by
        rw [List.getElem?_append_left hi, List.getElem?_eq_getElem hi]
      simpa using loadBuffer_eq hx (hsizes _ (List.mem_of_getElem? hx))
    rwa [List.length_map, hl₁] at this
  have hrecv : (List.range r.recoveryCount).mapM
      (fun i => loadBuffer (T₁ ++ T₂) b (r.originalCount + i)) = .ok (T₂.map pointer) := by
    have := mapM_range_eq (f := fun i => loadBuffer (T₁ ++ T₂) b (r.originalCount + i))
      (T₂.map pointer) fun i hi => by
        rw [List.length_map] at hi
        have hx : (T₁ ++ T₂)[r.originalCount + i]? = some T₂[i] := by
          rw [List.getElem?_append_right (by omega), hl₁, Nat.add_sub_cancel_left,
            List.getElem?_eq_getElem hi]
        simpa using loadBuffer_eq hx (hsizes _ (List.mem_of_getElem? hx))
    rwa [List.length_map, hl₂] at this
  have hwlen := mds.workLength b O work hk hO henc
  have hnonempty {U : List Bytes} (hU : ∀ x ∈ U, x.length = b) : ∀ x ∈ U, x ≠ [] := by
    rintro x hx rfl
    have := hU _ hx
    simp at this
    omega
  have hkept₁ : Kept (T₁.map pointer) O := kept_pointer h₁ (hnonempty hO)
  have hkept₂ : Kept (T₂.map pointer) (work.take r.recoveryCount) :=
    kept_pointer h₂ (hnonempty fun x hx => hwlen x (List.mem_of_mem_take hx))
  obtain ⟨out, hdec, hout⟩ := mds.recovers b O work _ _ hk hO henc hkept₁ hkept₂ (by
    rw [count_pointer, count_pointer, ← List.count_append]
    exact hloss)
  have hwork : ∀ i, (T₁ ++ T₂)[i]? = some [] → i < O.length → out[i]? = O[i]? := by
    intro i hi hlt
    apply hout i
    rw [List.getElem?_append_left (by omega)] at hi
    simp [hi, pointer]
  have hT : Surviving (T₁ ++ T₂) (O ++ work.take r.recoveryCount) := List.rel_append h₁ h₂
  have hfill := appendRecovered_eq hO hT (by omega) hsl hwork (r.originalCount - lost) lost
    (by omega)
  simp only [recover, if_neg mds.decodeWork, horig, hrecv, hdec, bind, Except.bind, ne_eq,
    not_true_eq_false, if_false]
  rcases hheader with rfl | ⟨rfl, h0⟩
  · simp only [pure, Except.pure, hfill]
    cases cutOutput d (joined sl O) <;> rfl
  · have h0' : (T₁ ++ T₂)[0]? = some [] := by
      rw [List.getElem?_append_left (by omega), h0]
    simp only [hwork 0 h0' (by omega), hhead, hfill]
    cases cutOutput d (joined sl O) <;> rfl

/-- What `decode` makes of any survivors of an encoding: the originals put together, and cut
as the header in the first of them says. -/
theorem decode_surviving (hb64 : b % 64 = 0) {d sl : Nat}
    (hhead : readHeader ((O[0]?).getD []) = .ok (d, sl)) (hsl : sl ≤ b) :
    decode leo r (T₁ ++ T₂) = (cutOutput d (joined sl O)).map fun out => (0, out) := by
  have hl₁ : T₁.length = r.originalCount := by rw [h₁.length_eq, hk]
  have hl₂ : T₂.length = r.recoveryCount := by
    rw [h₂.length_eq, List.length_take]
    omega
  have hsizes := surviving_sizes mds hk hO henc h₁ h₂
  have hsome : ∃ x ∈ T₁ ++ T₂, x ≠ [] := by
    by_contra hno
    push Not at hno
    have hall : (T₁ ++ T₂).count [] = (T₁ ++ T₂).length :=
      List.count_eq_length.mpr fun x hx => (hno x hx).symm
    rw [List.length_append] at hall
    omega
  have hT : Surviving (T₁ ++ T₂) (O ++ work.take r.recoveryCount) := List.rel_append h₁ h₂
  have hlast := lastSize_eq hsizes hsome
  simp only [decode, hlast]
  rw [if_neg (by omega)]
  obtain ⟨x, hx, hxlen, hor⟩ := surviving_original hO hT (i := 0) (by omega)
  rcases hor with h0 | h0
  · -- the first shard is lost: the header comes from the work data
    have h0' : T₁[0]? = some [] := by rwa [List.getElem?_append_left (by omega)] at h0
    have hrec := recover_eq mds hk hk0 hm hb hO henc h₁ h₂ hloss hhead hsl
      (Or.inr ⟨rfl, h0'⟩) (Nat.zero_le _)
    simp only [h0, Option.getD_some, List.length_nil, if_true]
    exact hrec
  · obtain ⟨i, happ, _, hile, hend⟩ := appendPresent_eq hO hT (by omega) hsl r.originalCount 0
      (by omega)
    have happ' : appendPresent (T₁ ++ T₂) sl r.originalCount 0 [] =
        .ok (i, joined sl (O.take i)) := happ
    have hhx : readHeader x = .ok (d, sl) := by simpa [hx] using hhead
    simp only [h0, Option.getD_some]
    rw [if_neg (by omega)]
    simp only [hhx, happ', bind, Except.bind]
    by_cases hi : i = r.originalCount
    · rw [if_pos hi, List.take_of_length_le (by omega)]
      cases cutOutput d (joined sl O) <;> rfl
    · rw [if_neg hi]
      exact recover_eq mds hk hk0 hm hb hO henc h₁ h₂ hloss hhead hsl (Or.inl rfl) (by omega)

end Recover

/-- What an encoding that succeeds consists of. -/
theorem encode_ok {input : Bytes} {S : List Bytes} (h : r.encode leo input = .ok (0, S)) :
    ∃ s work, s = r.sliceBytes input.length ∧ 0 < r.originalCount ∧
      16 + input.length ≤ s * r.originalCount ∧
      leo.encode (bufferBytes s) r.originalCount r.recoveryCount
        (leo.encodeWorkCount r.originalCount r.recoveryCount)
        (r.originalData (inputData input s (s * r.originalCount)) s (bufferBytes s)) = (0, work) ∧
      r.recoveryCount ≤ work.length ∧
      S = r.originalData (inputData input s (s * r.originalCount)) s (bufferBytes s) ++
        work.take r.recoveryCount := by
  simp only [encode] at h
  split at h
  · cases h
  rename_i hk
  split at h
  · cases h
  rename_i hsize
  split at h
  · simp at h
  split at h
  · rename_i hrst
    simp only [Except.ok.injEq, Prod.mk.injEq] at h
    exact absurd h.1 hrst
  rename_i hrst
  split at h
  · cases h
  rename_i hwork
  simp only [Except.ok.injEq, Prod.mk.injEq, true_and] at h
  exact ⟨_, _, rfl, by omega, by omega, Prod.ext (by simpa using hrst) rfl,
    Nat.le_of_not_lt hwork, h.symm⟩

section Header

variable {data : Bytes} {s : Nat}

theorem originalData_length : (r.originalData data s (bufferBytes s)).length = r.originalCount := by
  simp [originalData]

theorem originalData_first (data : Bytes) (h0 : 0 < r.originalCount) :
    (r.originalData data s (bufferBytes s))[0]? =
      some (data.take s ++ List.replicate (bufferBytes s - s) 0) := by
  rw [originalData, List.getElem?_map, List.getElem?_range h0]
  simp

variable (hdata : data.length = s * r.originalCount)
include hdata

theorem slice_length {i : Nat} (hi : i < r.originalCount) :
    ((data.drop (i * s)).take s).length = s := by
  have hmul : (i + 1) * s ≤ r.originalCount * s := Nat.mul_le_mul_right s hi
  rw [Nat.succ_mul] at hmul
  rw [List.length_take, List.length_drop, hdata, Nat.mul_comm s]
  omega

theorem originalData_size : ∀ x ∈ r.originalData data s (bufferBytes s),
    x.length = bufferBytes s := by
  intro x hx
  obtain ⟨i, hi, rfl⟩ := List.mem_map.mp hx
  have hle := le_bufferBytes s
  rw [List.length_append, slice_length hdata (List.mem_range.mp hi), List.length_replicate]
  omega

/-- Cut to `slice_bytes` each, the originals are the encoded data. -/
theorem joined_originalData : joined s (r.originalData data s (bufferBytes s)) = data := by
  have hcut : ∀ i ∈ List.range r.originalCount,
      ((data.drop (i * s)).take s ++ List.replicate (bufferBytes s - s) 0).take s =
        (data.drop (i * s)).take s := by
    intro i hi
    have hlen := slice_length hdata (List.mem_range.mp hi)
    rw [List.take_append_of_le_length (by omega), List.take_of_length_le (by omega)]
  rw [joined, originalData, List.flatMap_map, List.flatMap_congr hcut]
  exact flatMap_slices s r.originalCount data hdata

end Header

theorem readHeader_eq {b : Bytes} (h : 16 ≤ b.length) :
    readHeader b = .ok (readLe (b.take 8), readLe ((b.drop 8).take 8)) :=
  if_neg (by omega)

theorem readHeader_of_take {buf : Bytes} {d s : Nat} (h : buf.take 16 = le64 d ++ le64 s)
    (hd : d < 2 ^ 64) (hs : s < 2 ^ 64) : readHeader buf = .ok (d, s) := by
  have hlen := congrArg List.length h
  rw [List.length_take, List.length_append, le64_length, le64_length] at hlen
  have htake : buf.take 8 = le64 d := by
    have h8 := congrArg (List.take 8) h
    rwa [List.take_take, List.take_left' (le64_length d)] at h8
  have hdrop : (buf.drop 8).take 8 = le64 s := by
    have h8 := congrArg (List.drop 8) h
    rwa [List.drop_take, List.drop_left' (le64_length d)] at h8
  rw [readHeader_eq (by omega), htake, hdrop, readLe_le64 hd, readLe_le64 hs]

section FirstShard

variable {input : Bytes} {s total : Nat} (hs64 : s < 2 ^ 64)
  (hlen : input.length < 2 ^ 64)
include hs64 hlen

/-- From nine bytes on the first shard holds the header: the bytes of `slice_bytes` that are
cut off are zero, as the padding is. -/
theorem readHeader_first (hs : 9 ≤ s) :
    readHeader ((inputData input s total).take s ++
      List.replicate (bufferBytes s - s) 0) = .ok (input.length, s) := by
  apply readHeader_of_take _ hlen hs64
  have hhead : (inputData input s total).take 16 = le64 input.length ++ le64 s := inputData_take
  have hdlen : 16 ≤ (inputData input s total).length := by
    have := congrArg List.length hhead
    rw [List.length_take, List.length_append, le64_length, le64_length] at this
    omega
  have hb := bufferBytes_pos (s := s) (by omega)
  by_cases h16 : 16 ≤ s
  · rw [List.take_append_of_le_length (by rw [List.length_take]; omega), List.take_take,
      Nat.min_eq_left h16, hhead]
  · have hcut : (inputData input s total).take s =
        le64 input.length ++ (le64 s).take (s - 8) := by
      have h := congrArg (List.take s) hhead
      have hd : (le64 input.length).take s = le64 input.length :=
        List.take_of_length_le (by rw [le64_length]; omega)
      rwa [List.take_take, Nat.min_eq_left (by omega), List.take_append, le64_length, hd] at h
    have hl : (le64 input.length ++ (le64 s).take (s - 8)).length = s := by
      rw [List.length_append, le64_length, List.length_take, le64_length]
      omega
    have hpad : min (16 - s) (bufferBytes s - s) = 8 - (s - 8) := by omega
    rw [hcut, List.take_append, hl, List.take_of_length_le (by omega), List.take_replicate, hpad,
      List.append_assoc, le64_take_pad (by omega) (by omega) (by omega)]

omit hs64 hlen in
/-- Up to eight bytes it has no byte of `slice_bytes`, which is read as zero. -/
theorem readHeader_short (h0 : 0 < s) (hs : s ≤ 8) :
    ∃ d, readHeader ((inputData input s total).take s ++
      List.replicate (bufferBytes s - s) 0) = .ok (d, 0) := by
  have hb := bufferBytes_pos h0
  have hl : ((inputData input s total).take s).length = s := by
    rw [List.length_take, inputData, List.length_append, List.length_append, List.length_append,
      le64_length, le64_length]
    omega
  have hword : (((inputData input s total).take s ++
      List.replicate (bufferBytes s - s) 0).drop 8).take 8 = List.replicate 8 0 := by
    rw [List.drop_append, hl, List.drop_of_length_le (by omega), List.nil_append,
      List.drop_replicate, List.take_replicate]
    congr 1
    omega
  have h := readHeader_eq (b := (inputData input s total).take s ++ List.replicate (bufferBytes s - s) 0)
    (by rw [List.length_append, hl, List.length_replicate]; omega)
  rw [hword, readLe_replicate_zero] at h
  exact ⟨_, h⟩

end FirstShard

/-- The shards with those at the positions `E` erased. -/
def erase (E : Finset Nat) (S : List Bytes) : List Bytes :=
  S.mapIdx fun i x => if i ∈ E then [] else x

theorem erase_surviving (E : Finset Nat) (S : List Bytes) : Surviving (erase E S) S := by
  refine List.forall₂_iff_get.mpr ⟨by simp [erase], fun i _ _ => ?_⟩
  simp only [erase, List.get_eq_getElem, List.getElem_mapIdx]
  split
  · exact Or.inl rfl
  · exact Or.inr rfl

/-- No more shards are lost than positions erased. -/
theorem count_erase_le (E : Finset Nat) {S : List Bytes} (hne : ∀ x ∈ S, x ≠ []) :
    (erase E S).count [] ≤ E.card := by
  suffices h : (erase E S).count [] ≤ (E.filter (· < S.length)).card from
    h.trans (Finset.card_filter_le _ _)
  induction S using List.reverseRecOn with
  | nil => simp [erase]
  | append_singleton S x ih =>
    have hrest := ih fun y hy => hne y (List.mem_append_left _ hy)
    have hx : x ≠ [] := hne x (List.mem_append_right _ List.mem_cons_self)
    simp only [erase] at hrest
    simp only [erase, List.mapIdx_concat, List.count_append, List.length_append,
      List.length_singleton]
    by_cases hE : S.length ∈ E
    · have hins : insert S.length (E.filter (· < S.length)) ⊆ E.filter (· < S.length + 1) := by
        intro i hi
        rcases Finset.mem_insert.mp hi with rfl | hi
        · exact Finset.mem_filter.mpr ⟨hE, by omega⟩
        · obtain ⟨h₁, h₂⟩ := Finset.mem_filter.mp hi
          exact Finset.mem_filter.mpr ⟨h₁, by omega⟩
      have hcard := Finset.card_le_card hins
      rw [Finset.card_insert_of_notMem (by simp)] at hcard
      simp only [if_pos hE, List.count_singleton_self]
      omega
    · have hmono : E.filter (· < S.length) ⊆ E.filter (· < S.length + 1) := by
        intro i hi
        obtain ⟨h₁, h₂⟩ := Finset.mem_filter.mp hi
        exact Finset.mem_filter.mpr ⟨h₁, by omega⟩
      have hcard := Finset.card_le_card hmono
      have hzero : List.count [] [x] = 0 := List.count_eq_zero.mpr (by simpa using hx.symm)
      simp only [if_neg hE, hzero]
      omega

/-- What `decode` makes of an encoding with at most `m_recovery_count` shards erased. -/
theorem decode_erase {input : Bytes} {S : List Bytes}
    (mds : leo.Mds r.originalCount r.recoveryCount) (henc : r.encode leo input = .ok (0, S))
    (E : Finset Nat) (hE : E.card ≤ r.recoveryCount) :
    ∃ s, 0 < r.originalCount ∧ s = r.sliceBytes input.length ∧ 16 + input.length ≤ s * r.originalCount ∧
      ∀ d sl, readHeader ((inputData input s (s * r.originalCount)).take s ++
          List.replicate (bufferBytes s - s) 0) = .ok (d, sl) → sl ≤ s →
        r.decode leo (erase E S) = (cutOutput d (joined sl
          (r.originalData (inputData input s (s * r.originalCount)) s (bufferBytes s)))).map
            fun out => (0, out) := by
  obtain ⟨s, work, hs, hk0, hsize, hleo, hm, rfl⟩ := encode_ok henc
  refine ⟨s, hk0, hs, hsize, fun d sl hhead hsl => ?_⟩
  have hspos : 0 < s := by
    by_contra h0
    rw [Nat.eq_zero_of_not_pos h0, Nat.zero_mul] at hsize
    omega
  have hb := bufferBytes_pos hspos
  have hdata := inputData_length (s := s) hsize
  have hO := originalData_size hdata
  have hk : (r.originalData (inputData input s (s * r.originalCount)) s (bufferBytes s)).length =
      r.originalCount := originalData_length
  have hfirst := originalData_first (s := s) (inputData input s (s * r.originalCount)) hk0
  generalize r.originalData (inputData input s (s * r.originalCount)) s (bufferBytes s) = O at *
  have hwork := mds.workLength _ O work hk hO hleo
  have hsurv := erase_surviving E (O ++ work.take r.recoveryCount)
  have hcount : (erase E (O ++ work.take r.recoveryCount)).count [] ≤ r.recoveryCount := by
    refine (count_erase_le E fun x hx => ?_).trans hE
    rintro rfl
    have h0 : ([] : Bytes).length = bufferBytes s := by
      rcases List.mem_append.mp hx with h | h
      · exact hO _ h
      · exact hwork _ (List.mem_of_mem_take h)
    simp only [List.length_nil] at h0
    omega
  have h₁ := List.forall₂_take_append _ _ _ hsurv
  have h₂ := List.forall₂_drop_append _ _ _ hsurv
  rw [← List.take_append_drop O.length (erase E _)] at hcount ⊢
  have hle := le_bufferBytes s
  exact decode_surviving mds hk hk0 hm hb hO hleo h₁ h₂ hcount (bufferBytes_dvd s)
    (by simpa [hfirst] using hhead) (by omega)

/-- The first shard has to hold a byte of `slice_bytes`, so `slice_bytes` is at least nine. -/
theorem decode_erase_eq {n : Nat} (hn : n < 2 ^ 32) {leo : Leopard}
    (mds : leo.Mds (setParams n).originalCount (setParams n).recoveryCount)
    {input : Bytes} {S : List Bytes} (henc : (setParams n).encode leo input = .ok (0, S))
    (E : Finset Nat) (hE : E.card ≤ (setParams n).recoveryCount) :
    (setParams n).decode leo (erase E S) =
      if 8 * (setParams n).originalCount < input.length + 16 then .ok (0, input)
      else .error .undefined := by
  have hk : (setParams n).originalCount ≤ n := Nat.sub_le _ _
  obtain ⟨s, hk0, hs, hsize, hdec⟩ := decode_erase mds henc E hE
  have hs32 : s < 2 ^ 32 := by
    rw [hs, sliceBytes]
    exact Nat.mod_lt _ (by decide)
  have hprod : s * (setParams n).originalCount < 2 ^ 32 * 2 ^ 32 :=
    Nat.mul_lt_mul'' hs32 (by omega)
  have hceil : s * (setParams n).originalCount ≤
      input.length + 8 + 8 + (setParams n).originalCount - 1 := by
    rw [hs, sliceBytes]
    exact (Nat.mul_le_mul_right _ (Nat.mod_le _ _)).trans (Nat.div_mul_le_self _ _)
  have hdata := inputData_length (s := s) hsize
  by_cases h9 : 9 ≤ s
  · have hmul := Nat.mul_le_mul_right (setParams n).originalCount h9
    have hlen : input.length < 2 ^ 64 := by omega
    rw [hdec _ _ (readHeader_first (by omega) hlen h9) (le_refl _), joined_originalData hdata]
    have hcut : cutOutput input.length (inputData input s (s * (setParams n).originalCount)) =
        .ok input := by
      rw [cutOutput, if_neg (by omega), if_neg (by rw [List.length_drop]; omega), inputData_drop]
    rw [hcut, if_pos (by omega)]
    rfl
  · have hspos : 0 < s := by
      by_contra h0
      rw [Nat.eq_zero_of_not_pos h0, Nat.zero_mul] at hsize
      omega
    have hmul := Nat.mul_le_mul_right (setParams n).originalCount (show s ≤ 8 by omega)
    obtain ⟨d, hhead⟩ := readHeader_short hspos (show s ≤ 8 by omega)
    rw [hdec _ _ hhead (Nat.zero_le _)]
    have hcut : cutOutput d (joined 0 ((setParams n).originalData
        (inputData input s (s * (setParams n).originalCount)) s (bufferBytes s))) =
        .error .undefined := by
      simp [cutOutput, joined]
    rw [hcut, if_neg (by omega)]
    rfl

/-- The round trip, with the exact condition. -/
theorem roundTrip_iff {n : Nat} (hn : n < 2 ^ 32) {leo : Leopard}
    (mds : leo.Mds (setParams n).originalCount (setParams n).recoveryCount)
    {input : Bytes} {S : List Bytes} (henc : (setParams n).encode leo input = .ok (0, S)) :
    (∀ E : Finset Nat, E.card ≤ (setParams n).recoveryCount →
      (setParams n).decode leo (erase E S) = .ok (0, input)) ↔
    8 * (setParams n).originalCount < input.length + 16 := by
  constructor
  · intro h
    by_contra hshort
    have hdec := h ∅ (by simp)
    rw [decode_erase_eq hn mds henc ∅ (by simp), if_neg hshort] at hdec
    cases hdec
  · intro h E hE
    rw [decode_erase_eq hn mds henc E hE, if_pos h]

/-- One command of thirty-two bytes among four replicas, of which the first shard is lost. -/
theorem roundTrip_one_command :
    (setParams 4).decode xorLeopard (erase {0}
      [le64 32 ++ le64 16 ++ List.replicate 48 0, List.replicate 16 7 ++ List.replicate 48 0,
        List.replicate 16 7 ++ List.replicate 48 0, le64 32 ++ le64 16 ++ List.replicate 48 0]) =
      .ok (0, List.replicate 32 7) :=
  (roundTrip_iff (by decide) (xorLeopard_mds 3) (by decide +kernel)).mpr (by decide)
    {0} (by decide)

/-- No commands among four replicas: `slice_bytes` is six, and `decode` erases the header from
an empty output. -/
theorem roundTrip_no_commands :
    ¬ ∀ (n : Nat) (leo : Leopard) (input : Bytes) (S : List Bytes), 4 ≤ n → n < 2 ^ 32 →
      leo.Mds (setParams n).originalCount (setParams n).recoveryCount →
      (setParams n).encode leo input = .ok (0, S) →
      ∀ E : Finset Nat, E.card ≤ (setParams n).recoveryCount →
        (setParams n).decode leo (erase E S) = .ok (0, input) := by
  intro h
  let shard : Bytes := [0, 0, 6] ++ List.replicate 61 0
  have hdecode := h 4 xorLeopard [] [List.replicate 64 0, shard, List.replicate 64 0, shard]
    (by decide) (by decide) (xorLeopard_mds 3) (by decide +kernel) ∅ (by decide)
  exact absurd hdecode (by decide +kernel)

end RSE
end LibHotStuff
