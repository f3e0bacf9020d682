import LibHotStuff.Model.ShardsContainer
import LibHotStuff.Proofs.RseRoundTrip
import Mathlib

namespace LibHotStuff

/-- Leopard is total on buffers of equal length: when it succeeds, it leaves a buffer of this length
for each original. -/
structure Leopard.Total (leo : Leopard) (k m : Nat) : Prop where
  buffers : ∀ b orig recv work, orig.length = k → recv.length = m →
    (∀ x, some x ∈ orig ++ recv → x.length = b) →
    leo.decode b k m (leo.decodeWorkCount k m) orig recv = (0, work) →
    k ≤ work.length ∧ ∀ w ∈ work, w.length = b

theorem xorLeopard_total (k m : Nat) : xorLeopard.Total k m where
  buffers b orig recv work hk _ hall hdec := by
    simp only [xorLeopard] at hdec
    split at hdec
    · simp only [Prod.mk.injEq, true_and] at hdec
      subst hdec
      refine ⟨by simp [hk], fun w hw => ?_⟩
      obtain ⟨x, hx, rfl⟩ := List.mem_map.mp hw
      cases x with
      | some y => exact hall y (List.mem_append_left _ hx)
      | none =>
        apply parity_length
        intro y hy
        simp only [List.mem_filterMap, id_eq, exists_eq_right] at hy
        exact hall y hy
    · simp at hdec

namespace RSE

variable {leo : Leopard} {r : RSE} {input : List Bytes} {b sl : Nat}

/-- The pointer to a buffer of `b` bytes that `decode` fills from a shard, or null. -/
def buffer (b : Nat) (s : Bytes) : Option Bytes := if s.length = 0 then none else some (s.take b)

/-- The bytes that are there of an original: those of the shard, or of its work buffer. -/
def held (b : Nat) (s : Bytes) : Nat := if s.length = 0 then b else s.length

/-- What `leo_decode` makes of some shards. -/
def restored (leo : Leopard) (r : RSE) (input : List Bytes) : Int × List Bytes :=
  leo.decode (lastSize input) r.originalCount r.recoveryCount
    (leo.decodeWorkCount r.originalCount r.recoveryCount)
    ((input.take r.originalCount).map (buffer (lastSize input)))
    (((input.drop r.originalCount).take r.recoveryCount).map (buffer (lastSize input)))

/-- Where the header is: in shard 0, or in what is restored of it. -/
def headerShard (leo : Leopard) (r : RSE) (input : List Bytes) : Bytes :=
  if ((input[0]?).getD []).length = 0 then ((restored leo r input).2[0]?).getD []
  else (input[0]?).getD []

/-- `data_bytes` of a header. -/
def headerData (buf : Bytes) : Nat := readLe (buf.take 8)

/-- `slice_bytes` of a header. -/
def headerSlice (buf : Bytes) : Nat := readLe ((buf.drop 8).take 8)

/-- The originals before the first that is lost. -/
def presentShards (r : RSE) (input : List Bytes) : List Bytes :=
  (input.take r.originalCount).takeWhile fun s => decide (s.length ≠ 0)

/-- Shards that are as long as `decode` takes them to be. -/
def Fits (leo : Leopard) (r : RSE) (input : List Bytes) : Prop :=
  let b := lastSize input
  let d := headerData (headerShard leo r input)
  let sl := headerSlice (headerShard leo r input)
  b ≠ 0 → b % 64 = 0 →
    (((input[0]?).getD []).length ≠ 0 → 16 ≤ ((input[0]?).getD []).length) ∧
    (∀ s ∈ r.presentShards input, sl ≤ s.length) ∧
    if (r.presentShards input).length = r.originalCount then 16 + d ≤ r.originalCount * sl
    else leo.decodeWorkCount r.originalCount r.recoveryCount ≠ 0 →
      (∀ s ∈ input, s.length ≠ 0 → b ≤ s.length) ∧
      ((restored leo r input).1 = 0 →
        (∀ s ∈ input.take r.originalCount, sl ≤ held b s) ∧ 16 + d ≤ r.originalCount * sl)

/-- A call that returns, with `d` bytes of output if it succeeds. -/
def Returns (d : Nat) (res : Except Fault (Int × Bytes)) : Prop :=
  ∃ rst out, res = .ok (rst, out) ∧ (rst = 0 → out.length = d)

theorem Returns.not_error {d : Nat} {e : Fault} : ¬ Returns d (.error e) := by
  rintro ⟨_, _, h, _⟩
  cases h

theorem Returns.of_code {d : Nat} {rst : Int} {out : Bytes} (h : rst ≠ 0) :
    Returns d (.ok (rst, out)) :=
  ⟨rst, out, rfl, fun h' => absurd h' h⟩

theorem cutOutput_eq (d : Nat) (out : Bytes) : cutOutput d out =
    if 16 + d ≤ out.length then .ok ((out.drop 16).take d) else .error .undefined := by
  unfold cutOutput
  rw [List.length_drop]
  split
  · rw [if_neg (by omega)]
  · split
    · rw [if_neg (by omega)]
    · rw [if_pos (by omega)]

/-- The two `erase` calls stay in the output exactly when it is long enough. -/
theorem cutOutput_returns (d : Nat) (out : Bytes) :
    Returns d (cutOutput d out >>= fun out => pure (0, out)) ↔ 16 + d ≤ out.length := by
  rw [cutOutput_eq]
  split
  · rename_i hle
    refine iff_of_true ⟨0, _, rfl, fun _ => ?_⟩ hle
    rw [List.length_take, List.length_drop]
    omega
  · rename_i hlt
    exact iff_of_false Returns.not_error hlt

theorem drop_take_succ {i left : Nat} (hi : i + (left + 1) ≤ input.length) :
    ∃ s, input[i]? = some s ∧
      (input.drop i).take (left + 1) = s :: (input.drop (i + 1)).take left := by
  have hlt : i < input.length := by omega
  refine ⟨input.get ⟨i, hlt⟩, List.getElem?_eq_getElem hlt, ?_⟩
  rw [List.drop_eq_getElem_cons hlt, List.take_succ_cons]
  rfl

/-- The first loop appends the shards that are there, if none is too short. -/
theorem appendPresent_returns (input : List Bytes) (sl left i : Nat) (out : Bytes)
    (hi : i + left ≤ input.length) :
    let present := ((input.drop i).take left).takeWhile fun s => decide (s.length ≠ 0)
    (∀ s ∈ present, sl ≤ s.length) ∧
        (∃ out', appendPresent input sl left i out = .ok (i + present.length, out') ∧
          out'.length = out.length + present.length * sl) ∨
      (¬ ∀ s ∈ present, sl ≤ s.length) ∧ appendPresent input sl left i out = .error .undefined := by
  induction left generalizing i out with
  | zero =>
    left
    exact ⟨by simp, out, by simp [appendPresent], by simp⟩
  | succ left ih =>
    obtain ⟨s, hs, hcons⟩ := drop_take_succ hi
    dsimp only
    rw [hcons]
    simp only [appendPresent, hs]
    by_cases h0 : s.length = 0
    · left
      rw [List.takeWhile_cons_of_neg (by simp [h0]), if_pos h0]
      exact ⟨by simp, out, by simp, by simp⟩
    rw [List.takeWhile_cons_of_pos (by simpa using h0), if_neg h0]
    by_cases hshort : s.length < sl
    · right
      rw [if_pos hshort]
      refine ⟨fun h => ?_, rfl⟩
      have hle := h s List.mem_cons_self
      omega
    rw [if_neg hshort]
    have hlen : (out ++ s.take sl).length = out.length + sl := by
      rw [List.length_append, List.length_take]
      omega
    obtain ⟨hall, out', heq, hout⟩ | ⟨hnot, heq⟩ := ih (i + 1) (out ++ s.take sl) (by omega)
    · left
      refine ⟨fun x hx => ?_, out', ?_, ?_⟩
      · obtain rfl | hx := List.mem_cons.mp hx
        · omega
        · exact hall x hx
      · rw [heq, List.length_cons]
        congr 2
        omega
      · rw [hout, hlen, List.length_cons, Nat.succ_mul]
        omega
    · right
      exact ⟨fun h => hnot fun x hx => h x (List.mem_cons_of_mem _ hx), heq⟩

/-- The last loop appends what is there of each original, if it is not too short. -/
theorem appendRecovered_returns (input : List Bytes) {work : List Bytes} {k : Nat}
    (hwork : k ≤ work.length ∧ ∀ w ∈ work, w.length = b) (sl left i : Nat) (out : Bytes)
    (hi : i + left ≤ input.length) (hk : i + left ≤ k) :
    (∀ s ∈ (input.drop i).take left, sl ≤ held b s) ∧
        (∃ out', appendRecovered input work sl left i out = .ok out' ∧
          out'.length = out.length + left * sl) ∨
      (¬ ∀ s ∈ (input.drop i).take left, sl ≤ held b s) ∧
        appendRecovered input work sl left i out = .error .undefined := by
  induction left generalizing i out with
  | zero =>
    left
    exact ⟨by simp, out, rfl, by simp⟩
  | succ left ih =>
    obtain ⟨s, hs, hcons⟩ := drop_take_succ hi
    rw [hcons]
    -- a chunk of `slice_bytes` comes from a buffer `t` that has `held` bytes
    have chunk (t : Bytes) (ht : t.length = held b s)
        (heq : appendRecovered input work sl (left + 1) i out =
          if t.length < sl then .error .undefined
          else appendRecovered input work sl left (i + 1) (out ++ t.take sl)) :
        (∀ x ∈ s :: (input.drop (i + 1)).take left, sl ≤ held b x) ∧
            (∃ out', appendRecovered input work sl (left + 1) i out = .ok out' ∧
              out'.length = out.length + (left + 1) * sl) ∨
          (¬ ∀ x ∈ s :: (input.drop (i + 1)).take left, sl ≤ held b x) ∧
            appendRecovered input work sl (left + 1) i out = .error .undefined := by
      rw [heq]
      by_cases hshort : t.length < sl
      · right
        rw [if_pos hshort]
        refine ⟨fun h => ?_, rfl⟩
        have hle := h s List.mem_cons_self
        omega
      rw [if_neg hshort]
      have hlen : (out ++ t.take sl).length = out.length + sl := by
        rw [List.length_append, List.length_take]
        omega
      obtain ⟨hall, out', hok, hout⟩ | ⟨hnot, herr⟩ :=
        ih (i + 1) (out ++ t.take sl) (by omega) (by omega)
      · left
        refine ⟨fun x hx => ?_, out', hok, ?_⟩
        · obtain rfl | hx := List.mem_cons.mp hx
          · omega
          · exact hall x hx
        · rw [hout, hlen, Nat.succ_mul]
          omega
      · right
        exact ⟨fun h => hnot fun x hx => h x (List.mem_cons_of_mem _ hx), herr⟩
    by_cases h0 : s.length = 0
    · have hlt : i < work.length := by omega
      have hw := List.getElem?_eq_getElem hlt
      apply chunk (work.get ⟨i, hlt⟩)
      · rw [held, if_pos h0]
        exact hwork.2 _ (List.get_mem work ⟨i, hlt⟩)
      · simp only [appendRecovered, hs, if_pos h0, hw]
        rfl
    · apply chunk s
      · rw [held, if_neg h0]
      · simp only [appendRecovered, hs, if_neg h0]

theorem loadBuffer_some {i : Nat} {s : Bytes} (hs : input[i]? = some s) :
    loadBuffer input b i =
      if s.length ≠ 0 → b ≤ s.length then .ok (buffer b s) else .error .undefined := by
  simp only [loadBuffer, hs, buffer]
  by_cases h0 : s.length = 0
  · simp [h0]
  · by_cases hlt : s.length < b
    · simp [h0, hlt]
    · simp [h0, hlt, Nat.le_of_not_lt hlt]

/-- Shards are copied into buffers, if none of them is too short. -/
theorem loadBuffers_eq (input : List Bytes) (b k o : Nat) (ho : o + k ≤ input.length) :
    (List.range k).mapM (fun i => loadBuffer input b (o + i)) =
      if ∀ s ∈ (input.drop o).take k, s.length ≠ 0 → b ≤ s.length then
        .ok (((input.drop o).take k).map (buffer b))
      else .error .undefined := by
  induction k generalizing o with
  | zero => simp [pure, Except.pure]
  | succ k ih =>
    obtain ⟨s, hs, hcons⟩ := drop_take_succ ho
    have hshift : (fun i => loadBuffer input b (o + (i + 1))) =
        fun i => loadBuffer input b (o + 1 + i) := by
      funext i
      rw [Nat.add_right_comm, Nat.add_assoc]
    rw [List.range_succ_eq_map, List.mapM_cons, List.mapM_map, hcons, Nat.add_zero,
      loadBuffer_some hs]
    have hrest := ih (o + 1) (by omega)
    rw [← hshift] at hrest
    by_cases hlen : s.length ≠ 0 → b ≤ s.length
    · rw [if_pos hlen]
      change ((List.range k).mapM fun i => loadBuffer input b (o + (i + 1))) >>= _ = _
      rw [hrest]
      by_cases hall : ∀ s ∈ (input.drop (o + 1)).take k, s.length ≠ 0 → b ≤ s.length
      · rw [if_pos hall, if_pos (List.forall_mem_cons.mpr ⟨hlen, hall⟩)]
        rfl
      · rw [if_neg hall, if_neg fun h => hall (List.forall_mem_cons.mp h).2]
        rfl
    · rw [if_neg hlen, if_neg fun h => hlen (List.forall_mem_cons.mp h).1]
      rfl

theorem readHeader_long {buf : Bytes} (h : 16 ≤ buf.length) :
    readHeader buf = .ok (headerData buf, headerSlice buf) := by
  rw [readHeader, if_neg (by omega)]
  rfl

section Recover

variable (htotal : leo.Total r.originalCount r.recoveryCount) (hk : 0 < r.originalCount)
  (hlen : input.length = r.originalCount + r.recoveryCount) (hb : 64 ≤ lastSize input)
  (hcopied : ∀ s ∈ input, s.length ≠ 0 → lastSize input ≤ s.length)
include htotal hlen hcopied

/-- The work data of a success. -/
theorem restored_buffers (hrst : (restored leo r input).1 = 0) :
    r.originalCount ≤ (restored leo r input).2.length ∧
      ∀ w ∈ (restored leo r input).2, w.length = lastSize input := by
  apply htotal.buffers (lastSize input) _ _ _ _ _ _ (Prod.ext hrst rfl)
  · rw [List.length_map, List.length_take]
    omega
  · rw [List.length_map, List.length_take, List.length_drop]
    omega
  · intro x hx
    rw [← List.map_append, List.mem_map] at hx
    obtain ⟨s, hs, hbuf⟩ := hx
    have hmem : s ∈ input := by
      obtain hs | hs := List.mem_append.mp hs
      · exact List.mem_of_mem_take hs
      · exact List.mem_of_mem_drop (List.mem_of_mem_take hs)
    unfold buffer at hbuf
    split at hbuf
    · cases hbuf
    · rename_i h0
      obtain rfl := Option.some.inj hbuf
      rw [List.length_take]
      exact Nat.min_eq_left (hcopied s hmem h0)

/-- With the header read, the call ends with the output that it asks for if the shards and buffers
are long enough. -/
theorem completes_returns {lost d : Nat} {out : Bytes} (hlost : lost ≤ r.originalCount)
    (hout : out.length = lost * sl)
    (hbefore : ∀ s ∈ (input.take r.originalCount).take lost, sl ≤ held (lastSize input) s)
    (hrst : (restored leo r input).1 = 0) :
    Returns d (appendRecovered input (restored leo r input).2 sl (r.originalCount - lost) lost out
      >>= fun out => cutOutput d out >>= fun out => pure (0, out)) ↔
    (∀ s ∈ input.take r.originalCount, sl ≤ held (lastSize input) s) ∧
      16 + d ≤ r.originalCount * sl := by
  have hwork := restored_buffers htotal hlen hcopied hrst
  have hrest : (input.drop lost).take (r.originalCount - lost) =
      (input.take r.originalCount).drop lost := by
    rw [List.drop_take]
  have hsplit : (∀ s ∈ input.take r.originalCount, sl ≤ held (lastSize input) s) ↔
      ∀ s ∈ (input.drop lost).take (r.originalCount - lost), sl ≤ held (lastSize input) s := by
    rw [hrest]
    conv_lhs => rw [← List.take_append_drop lost (input.take r.originalCount)]
    constructor
    · exact fun h s hs => h s (List.mem_append_right _ hs)
    · intro h s hs
      obtain hs | hs := List.mem_append.mp hs
      · exact hbefore s hs
      · exact h s hs
  rw [hsplit]
  obtain ⟨hall, out', hok, hlen'⟩ | ⟨hnot, herr⟩ :=
    appendRecovered_returns input hwork sl (r.originalCount - lost) lost out (by omega) (by omega)
  · rw [hok]
    have htot : out'.length = r.originalCount * sl := by
      rw [hlen', hout, ← Nat.add_mul]
      congr 1
      omega
    rw [← htot, and_iff_right hall]
    exact cutOutput_returns d out'
  · rw [herr]
    exact iff_of_false Returns.not_error fun h => hnot h.1

include hk hb

/-- The header of a lost shard 0 can be read. -/
theorem readHeader_restored (hrst : (restored leo r input).1 = 0) :
    readHeader (((restored leo r input).2[0]?).getD []) =
      .ok (headerData (((restored leo r input).2[0]?).getD []),
        headerSlice (((restored leo r input).2[0]?).getD [])) := by
  have hwork := restored_buffers htotal hlen hcopied hrst
  apply readHeader_long
  have hlt : 0 < (restored leo r input).2.length := by omega
  rw [List.getElem?_eq_getElem hlt, Option.getD_some, hwork.2 _ (List.getElem_mem hlt)]
  omega

end Recover

/-- How the recovery path ends. -/
theorem recover_returns (htotal : leo.Total r.originalCount r.recoveryCount)
    (hk : 0 < r.originalCount) (hlen : input.length = r.originalCount + r.recoveryCount)
    (hb : 64 ≤ lastSize input) {lost d : Nat} {header : Option (Nat × Nat)} {out : Bytes}
    (hlost : lost ≤ r.originalCount) (hout : out.length = lost * sl)
    (hbefore : ∀ s ∈ (input.take r.originalCount).take lost, sl ≤ held (lastSize input) s)
    (hheader : header = some (d, sl) ∨ header = none ∧
      d = headerData (((restored leo r input).2[0]?).getD []) ∧
      sl = headerSlice (((restored leo r input).2[0]?).getD [])) :
    Returns d (recover leo r input (lastSize input) lost header out) ↔
      (leo.decodeWorkCount r.originalCount r.recoveryCount ≠ 0 →
        (∀ s ∈ input, s.length ≠ 0 → lastSize input ≤ s.length) ∧
        ((restored leo r input).1 = 0 →
          (∀ s ∈ input.take r.originalCount, sl ≤ held (lastSize input) s) ∧
            16 + d ≤ r.originalCount * sl)) := by
  have horig := loadBuffers_eq input (lastSize input) r.originalCount 0 (by omega)
  have hrecv := loadBuffers_eq input (lastSize input) r.recoveryCount r.originalCount (by omega)
  simp only [Nat.zero_add, List.drop_zero] at horig
  have hsplit : input = input.take r.originalCount ++
      (input.drop r.originalCount).take r.recoveryCount := by
    conv_lhs => rw [← List.take_append_drop r.originalCount input]
    rw [List.take_of_length_le (l := input.drop r.originalCount) (by rw [List.length_drop]; omega)]
  unfold recover
  by_cases hwc : leo.decodeWorkCount r.originalCount r.recoveryCount = 0
  · simp only [hwc, if_true]
    exact iff_of_true (.of_code (by decide)) fun h => absurd rfl h
  simp only [hwc, if_false, ne_eq, not_false_eq_true, forall_const]
  rw [horig]
  by_cases hall : ∀ s ∈ input.take r.originalCount, s.length ≠ 0 → lastSize input ≤ s.length
  swap
  · rw [if_neg hall]
    exact iff_of_false Returns.not_error fun h =>
      hall fun s hs => h.1 s (List.mem_of_mem_take hs)
  rw [if_pos hall, hrecv]
  by_cases hall' : ∀ s ∈ (input.drop r.originalCount).take r.recoveryCount,
      s.length ≠ 0 → lastSize input ≤ s.length
  swap
  · rw [if_neg hall']
    exact iff_of_false Returns.not_error fun h =>
      hall' fun s hs => h.1 s (List.mem_of_mem_drop (List.mem_of_mem_take hs))
  rw [if_pos hall']
  have hcopied : ∀ s ∈ input, s.length ≠ 0 → lastSize input ≤ s.length := by
    intro s hs
    rw [hsplit] at hs
    obtain hs | hs := List.mem_append.mp hs
    · exact hall s hs
    · exact hall' s hs
  rw [and_iff_right hcopied]
  change Returns d (if (restored leo r input).1 ≠ 0 then _ else _) ↔ _
  by_cases hrst : (restored leo r input).1 = 0
  swap
  · rw [if_pos hrst]
    exact iff_of_true (.of_code hrst) fun h => absurd h hrst
  rw [if_neg (not_not.mpr hrst), ← completes_returns htotal hlen hcopied hlost hout hbefore hrst]
  obtain rfl | ⟨rfl, rfl, rfl⟩ := hheader
  · exact ⟨fun h _ => h, fun h => h hrst⟩
  · change Returns _ (readHeader (((restored leo r input).2[0]?).getD []) >>= fun x =>
      appendRecovered input (restored leo r input).2 x.2 (r.originalCount - lost) lost out >>=
        fun out => cutOutput x.1 out >>= fun out => pure (0, out)) ↔ _
    rw [readHeader_restored htotal hk hlen hb hcopied hrst]
    exact ⟨fun h _ => h, fun h => h hrst⟩

theorem presentShards_take : (input.take r.originalCount).take (r.presentShards input).length =
    r.presentShards input :=
  (List.prefix_iff_eq_take.mp (List.takeWhile_prefix _)).symm

theorem presentShards_le : (r.presentShards input).length ≤ r.originalCount :=
  ((List.takeWhile_prefix _).length_le).trans (List.length_take_le _ _)

theorem held_present {s : Bytes} (hs : s ∈ r.presentShards input) : held b s = s.length := by
  have hne := List.mem_takeWhile_imp hs
  rw [held, if_neg (by simpa using hne)]

/-- A lost shard 0 is no original before the first lost one. -/
theorem presentShards_nil (hk : 0 < r.originalCount) (h0 : ((input[0]?).getD []).length = 0) :
    r.presentShards input = [] := by
  obtain ⟨k, hk⟩ := Nat.exists_eq_succ_of_ne_zero (Nat.ne_of_gt hk)
  unfold presentShards
  cases input with
  | nil => simp
  | cons s rest =>
    rw [hk, List.take_succ_cons, List.takeWhile_cons_of_neg]
    simpa using h0

/-- Decoding is safe exactly for shards that fit: for any strings in the place of the shards, of any
lengths, `decode` reads, inserts and erases within its vectors and returns a code or `data_bytes`
bytes if and only if the shards are as long as it takes them to be. -/
theorem decode_safe {n : Nat} (hn : 4 ≤ n)
    (htotal : leo.Total (setParams n).originalCount (setParams n).recoveryCount)
    (hlen : input.length = n) :
    Returns (headerData (headerShard leo (setParams n) input)) ((setParams n).decode leo input) ↔
      (setParams n).Fits leo input := by
  have hcount : n = (setParams n).originalCount + (setParams n).recoveryCount := by
    simp only [setParams]
    omega
  have hk : 0 < (setParams n).originalCount := by
    simp only [setParams]
    omega
  rw [hcount] at hlen
  generalize setParams n = r at *
  unfold decode Fits
  by_cases hbad : lastSize input = 0 ∨ lastSize input % 64 ≠ 0
  · simp only [if_pos hbad]
    exact iff_of_true (.of_code (by decide)) fun h0 h64 => by omega
  have hb : 64 ≤ lastSize input := by omega
  simp only [if_neg hbad]
  have hdomain {p : Prop} : (lastSize input ≠ 0 → lastSize input % 64 = 0 → p) ↔ p :=
    ⟨fun h => h (by omega) (by omega), fun h _ _ => h⟩
  rw [hdomain]
  by_cases h0 : ((input[0]?).getD []).length = 0
  · have hnone := presentShards_nil hk h0
    have hhead : headerShard leo r input = ((restored leo r input).2[0]?).getD [] := if_pos h0
    rw [if_pos h0, hnone, hhead]
    have hempty (sl : Nat) : ([] : Bytes).length = 0 * sl := by simp
    rw [recover_returns htotal hk hlen hb (Nat.zero_le _) (hempty _) (by simp)
      (Or.inr ⟨rfl, rfl, rfl⟩)]
    simp [h0, Nat.ne_of_lt hk]
  have hhead : headerShard leo r input = (input[0]?).getD [] := if_neg h0
  rw [if_neg h0, hhead]
  by_cases h16 : 16 ≤ ((input[0]?).getD []).length
  swap
  · rw [readHeader, if_pos (by omega)]
    exact iff_of_false Returns.not_error fun h => h16 (h.1 h0)
  rw [readHeader_long h16]
  obtain ⟨hall, out, hok, hout⟩ | ⟨hnot, herr⟩ := appendPresent_returns input
    (headerSlice ((input[0]?).getD [])) r.originalCount 0 [] (by omega)
  swap
  · exact iff_of_false (fun h => Returns.not_error (by simpa only [bind, Except.bind, herr] using h))
      fun h => hnot h.2.1
  rw [List.drop_zero] at hall hok hout
  change ∀ s ∈ r.presentShards input, _ at hall
  change _ = Except.ok (0 + (r.presentShards input).length, out) at hok
  change out.length = 0 + (r.presentShards input).length * _ at hout
  rw [Nat.zero_add] at hok hout
  rw [and_iff_right fun _ => h16, and_iff_right hall]
  change Returns _ (appendPresent input (headerSlice ((input[0]?).getD [])) r.originalCount 0 [] >>=
    fun x => if x.1 = r.originalCount then _ else _) ↔ _
  rw [hok]
  change Returns _ (if (r.presentShards input).length = r.originalCount then _ else _) ↔ _
  by_cases hfast : (r.presentShards input).length = r.originalCount
  · rw [if_pos hfast, if_pos hfast]
    rw [hfast] at hout
    rw [← hout]
    exact cutOutput_returns _ out
  · rw [if_neg hfast, if_neg hfast]
    apply recover_returns htotal hk hlen hb presentShards_le hout
    · intro s hs
      rw [presentShards_take] at hs
      rw [held_present hs]
      exact hall s hs
    · exact Or.inl rfl

/-- Four shards of which the first, with its header of `d` and `sl`, is there. -/
def fourShards (d sl : Nat) : List Bytes :=
  [le64 d ++ le64 sl ++ List.replicate 48 0, [], List.replicate 64 1, List.replicate 64 2]

/-- Shard 1 is lost, and `decode` returns the 20 bytes that the header in shard 0 asks for. -/
theorem decode_safe_recovered :
    Returns 20 ((setParams 4).decode xorLeopard (fourShards 20 12)) ∧
      headerData (headerShard xorLeopard (setParams 4) (fourShards 20 12)) = 20 := by
  have hhead : headerData (headerShard xorLeopard (setParams 4) (fourShards 20 12)) = 20 := by
    decide +kernel
  have hfits : (setParams 4).Fits xorLeopard (fourShards 20 12) := by
    unfold Fits
    decide +kernel
  have hret := (decode_safe (by decide) (xorLeopard_total _ _) (by decide)).mpr hfits
  rw [hhead] at hret
  exact ⟨hret, hhead⟩

/-- A container that has got shards 0, 2 and 3 of block 1. -/
def threeArrived (shards : List Bytes) : Except Fault (ShardsContainer Nat) :=
  [0, 2, 3].foldlM (fun sc i => (sc.insertShard 1 i ((shards[i]?).getD [])).map Prod.snd)
    (ShardsContainer.setParams 4)

/-- `get_block` returns these shards, and `decode` goes beyond a shard or the output. -/
def Breaks (shards : List Bytes) : Prop :=
  (threeArrived shards).map (fun sc => sc.getBlock 1) = .ok (0, shards) ∧
    (setParams 4).decode xorLeopard shards = .error .undefined

/-- A header with a large `slice_bytes`, one with a large `data_bytes`, and a shard that is shorter
than the last one. -/
theorem decode_hostile : Breaks (fourShards 20 65) ∧ Breaks (fourShards 21 12) ∧
    Breaks [le64 20 ++ le64 12, [], List.replicate 64 1, List.replicate 64 2] := by
  unfold Breaks
  decide +kernel

end RSE
end LibHotStuff
