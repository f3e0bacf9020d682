import LibHotStuff.Model.Consensus
import LibHotStuff.Proofs.RseRoundTrip

namespace LibHotStuff

namespace RSE

/-- The places of the lost shards. -/
def lost (T : List Bytes) : Finset Nat := (Finset.range T.length).filter fun i => T[i]? = some []

theorem lost_card (T : List Bytes) : (lost T).card = T.count [] := by
  induction T using List.reverseRecOn with
  | nil => rfl
  | append_singleton T x ih =>
    have hfirst : ∀ i ∈ Finset.range T.length, ((T ++ [x])[i]? = some [] ↔ T[i]? = some []) := by
      intro i hi
      rw [List.getElem?_append_left (Finset.mem_range.mp hi)]
    have hlast : (T ++ [x])[T.length]? = some x := by simp
    rw [lost, List.length_append, List.length_singleton, Finset.range_add_one, Finset.filter_insert,
      Finset.filter_congr hfirst, hlast, List.count_append, ← ih]
    by_cases hx : x = []
    · rw [if_pos (congrArg some hx), Finset.card_insert_of_notMem (by simp), hx]
      simp [lost]
    · rw [if_neg (fun h => hx (Option.some.inj h)), List.count_singleton]
      simp [lost, hx]

theorem erase_lost {T S : List Bytes} (h : Surviving T S) : erase (lost T) S = T := by
  have hlen : T.length = S.length := h.length_eq
  apply List.ext_getElem
  · simp [erase, hlen]
  · intro i hi hi'
    have hkept := List.forall₂_iff_get.mp h |>.2 i hi' (by omega)
    simp only [List.get_eq_getElem] at hkept
    have hmem : i ∈ lost T ↔ T[i] = [] := by
      simp [lost, hi']
    simp only [erase, List.getElem_mapIdx, hmem]
    split
    · rename_i hnil
      exact hnil.symm
    · rename_i hne
      exact (hkept.resolve_left hne).symm

end RSE

theorem encodeInput_length (cmds : List UInt256) :
    (Core.encodeInput cmds).length = 32 * cmds.length := by
  induction cmds with
  | nil => rfl
  | cons c cmds ih =>
    have ih : (cmds.flatMap (·.bytes)).length = 32 * cmds.length := ih
    rw [Core.encodeInput, List.flatMap_cons, List.length_append, ih, c.size, List.length_cons]
    omega

/-- Chunk `i` of the encoded commands is command `i`. -/
theorem encodeInput_chunk (cmds : List UInt256) {i : Nat} (hi : i < cmds.length) :
    ((Core.encodeInput cmds).drop (i * 32)).take 32 = cmds[i].bytes := by
  induction cmds generalizing i with
  | nil => cases hi
  | cons c cmds ih =>
    rw [Core.encodeInput, List.flatMap_cons]
    cases i with
    | zero =>
      rw [Nat.zero_mul, List.drop_zero]
      exact List.take_left' c.size
    | succ i =>
      have hsplit : (i + 1) * 32 = c.bytes.length + i * 32 := by
        rw [c.size]
        omega
      rw [hsplit, ← List.drop_drop, List.drop_left, List.getElem_cons_succ]
      exact ih (Nat.lt_of_succ_lt_succ hi)

theorem chunks_encodeInput (cmds : List UInt256) :
    ((List.range ((Core.encodeInput cmds).length / 32)).map fun i =>
      UInt256.ofBytes (((Core.encodeInput cmds).drop (i * 32)).take 32)) = cmds := by
  have hlen : (Core.encodeInput cmds).length / 32 = cmds.length := by
    rw [encodeInput_length]
    omega
  apply List.ext_getElem
  · simp [hlen]
  · intro i _ hi
    rw [List.getElem_map, List.getElem_range, encodeInput_chunk cmds hi, UInt256.ofBytes_bytes]

/-- What is decoded from enough shards of some commands: these commands, or the header is read from
a shard that does not hold it. -/
theorem asyncDecode_encode {n : Nat} (hn : n < 2 ^ 32) {leo : Leopard}
    (mds : leo.Mds (RSE.setParams n).originalCount (RSE.setParams n).recoveryCount)
    {cmds : List UInt256} {S T : List Bytes}
    (henc : (RSE.setParams n).encode leo (Core.encodeInput cmds) = .ok (0, S))
    (hT : Surviving T S) (hcount : T.count [] ≤ (RSE.setParams n).recoveryCount) :
    asyncDecode leo (RSE.setParams n) T =
      if 8 * (RSE.setParams n).originalCount < 32 * cmds.length + 16 then .ok cmds
      else .error .undefined := by
  have hdec := RSE.decode_erase_eq hn mds henc (RSE.lost T) (by rwa [RSE.lost_card])
  rw [RSE.erase_lost hT, encodeInput_length] at hdec
  by_cases hlong : 8 * (RSE.setParams n).originalCount < 32 * cmds.length + 16
  · have heven : ¬ (Core.encodeInput cmds).length % 32 ≠ 0 := by
      rw [encodeInput_length]
      omega
    rw [if_pos hlong] at hdec ⊢
    simp only [asyncDecode, hdec]
    rw [if_neg (by simp), if_neg heven, chunks_encodeInput]
  · rw [if_neg hlong] at hdec ⊢
    simp only [asyncDecode, hdec]

end LibHotStuff
