import LibHotStuff.Proofs.WireRoundTrip

namespace LibHotStuff.Wire.QuorumCert

open Codec DataStream

variable {PubKey Sig : Type} {F : Formats PubKey Sig} {config : ReplicaConfig PubKey}

/-- The entries are those of the bits that are read, whatever the stream holds. -/
theorem getSigs_mem {is : List Nat} {old new : Sigs Sig} {bs rest : Bytes}
    (h : getSigs F is old bs = .ok (new, rest)) (rid : ReplicaID) :
    rid ∈ new ↔ rid ∈ old ∨ ∃ i ∈ is, key i = rid := by
  induction is generalizing old bs with
  | nil =>
    injection h with h
    injection h with h _
    subst h
    simp
  | cons i is ih =>
    obtain ⟨sig, mid, _, hrest⟩ := bind_ok h
    rw [ih hrest, Finmap.mem_insert]
    simp only [List.exists_mem_cons_iff, or_assoc]
    constructor
    · intro hmem
      obtain rfl | hold | hlater := hmem
      · exact Or.inr (Or.inl rfl)
      · exact Or.inl hold
      · exact Or.inr (Or.inr hlater)
    · intro hmem
      obtain hold | rfl | hlater := hmem
      · exact Or.inr (Or.inl hold)
      · exact Or.inl rfl
      · exact Or.inr (Or.inr hlater)

/-- A decoded certificate has a signature for each set bit, and for nothing else. -/
theorem unserialize_mem {bs rest : Bytes} {qc : QuorumCert Sig}
    (h : unserialize F bs = .ok (qc, rest)) (rid : ReplicaID) :
    rid ∈ qc.sigs ↔ ∃ i ∈ setBits qc.rids, key i = rid := by
  obtain ⟨objHash, _, _, h⟩ := bind_ok h
  obtain ⟨rids, _, _, h⟩ := bind_ok h
  obtain ⟨sigs, _, hsigs, h⟩ := bind_ok h
  injection h with h
  injection h with h _
  subst h
  rw [getSigs_mem hsigs]
  simp [Finmap.notMem_empty]

/-- When the loop has come to its end, each key that it has seen has verified. -/
theorem checkSigs_true {objHash : UInt256} {is : List Nat} {sigs : Sigs Sig}
    (hmem : ∀ i ∈ is, key i ∈ sigs) (h : (checkSigs F config objHash is sigs).1 = .ok true) :
    ∀ i ∈ is, ∃ pubkey sig, config.replicaMap (key i) = some pubkey ∧
      sigs.lookup (key i) = some sig ∧ F.verifySig pubkey objHash sig = true := by
  induction is with
  | nil => exact fun i hi => nomatch hi
  | cons i is ih =>
    obtain ⟨sig, hsig⟩ := Option.isSome_iff_exists.mp
      (Finmap.lookup_isSome.mpr (hmem i List.mem_cons_self))
    simp only [checkSigs, hsig] at h
    split at h
    · cases h
    · rename_i pubkey hpubkey
      split at h
      · rename_i hverify
        intro j hj
        obtain rfl | hj := List.mem_cons.mp hj
        · exact ⟨pubkey, sig, hpubkey, hsig, hverify⟩
        · exact ih (fun k hk => hmem k (List.mem_cons_of_mem i hk)) h j hj
      · cases h

/-- A certificate that is decoded from any bytes and verifies has the signatures of `nmajority`
registered replicas; bits from 2 ^ 16 on share the key of a lower one. -/
theorem verify_sound (F : Formats PubKey Sig) (config : ReplicaConfig PubKey) (bs rest : Bytes)
    (qc : QuorumCert Sig) (hparse : unserialize F bs = .ok (qc, rest))
    (hverify : (qc.verify F config).1 = .ok true) :
    ∃ signers : Finset ReplicaID, config.nmajority ≤ signers.card ∧
      ∀ rid ∈ signers, rid < 2 ^ 16 ∧ ∃ pubkey sig, config.replicaMap rid = some pubkey ∧
        qc.sigs.lookup rid = some sig ∧ F.verifySig pubkey qc.objHash sig = true := by
  unfold verify at hverify
  split at hverify
  · cases hverify
  · rename_i hcount
    have hmem : ∀ i ∈ setBits qc.rids, key i ∈ qc.sigs := fun i hi =>
      (unserialize_mem hparse (key i)).mpr ⟨i, hi, rfl⟩
    refine ⟨qc.sigs.keys, Nat.le_of_not_lt hcount, fun rid hrid => ?_⟩
    obtain ⟨i, hi, hkey⟩ := (unserialize_mem hparse rid).mp (Finmap.mem_keys.mp hrid)
    subst hkey
    exact ⟨Nat.mod_lt _ (by decide), checkSigs_true hmem hverify i hi⟩

namespace Concrete

open Wire.Concrete

/-- The signature of a replica of the hash that a certificate is for. -/
def signatureOf (rid : ReplicaID) : Sig64 :=
  ⟨List.replicate 32 (.ofNat rid) ++ List.replicate 32 5, rfl⟩

/-- A certificate with the signatures of three of four replicas. -/
def signedCert : QuorumCert Sig64 where
  objHash := bytes32 5
  rids := [true, true, false, true]
  sigs := ((Finmap.singleton 0 (signatureOf 0)).insert 1 (signatureOf 1)).insert 3 (signatureOf 3)

def fourKeys : ReplicaConfig UInt256 where
  replicaMap := fun rid => if rid < 4 then some (bytes32 (.ofNat rid)) else none
  nmajority := 3

theorem signedCert_setBits : setBits signedCert.rids = [0, 1, 3] := by decide

theorem signedCert_sized : signedCert.Sized := by
  refine ⟨by decide, fun rid => ?_⟩
  rw [signedCert_setBits, signedCert, Finmap.mem_insert, Finmap.mem_insert, Finmap.mem_singleton]
  simp only [key, List.exists_mem_cons_iff, List.not_mem_nil, false_and, exists_false, or_false]
  constructor
  · rintro (rfl | rfl | rfl) <;> decide
  · rintro (rfl | rfl | rfl) <;> decide

/-- The bytes of the certificate. -/
theorem signedCert_parse : ∃ bs, unserialize formats bs = .ok (signedCert, []) := by
  obtain ⟨bs, _, hreads⟩ := serialize_reads formats_lawful signedCert_sized
  have h := hreads []
  rw [List.append_nil] at h
  exact ⟨bs, h⟩

theorem verify_sound_signed : ∃ bs, unserialize formats bs = .ok (signedCert, []) ∧
    ∃ signers : Finset ReplicaID, 3 ≤ signers.card ∧
      ∀ rid ∈ signers, rid < 2 ^ 16 ∧ ∃ pubkey sig, fourKeys.replicaMap rid = some pubkey ∧
        signedCert.sigs.lookup rid = some sig ∧
          formats.verifySig pubkey signedCert.objHash sig = true := by
  obtain ⟨bs, hparse⟩ := signedCert_parse
  exact ⟨bs, hparse, verify_sound formats fourKeys bs [] signedCert hparse (by decide)⟩

end Concrete

section Core

variable {H : Type}

theorem signers_toCore (name : UInt256 → H) (qc : QuorumCert Sig) : (qc.toCore name).signers =
    (setBits qc.rids).filterMap fun i => (qc.sigs.lookup (key i)).map fun sig => (key i, sig) := by
  have hzip (n : Nat) (g : Nat → Option Sig) :
      ((List.range n).map g).zipIdx = (List.range n).map fun i => (g i, i) := by
    apply List.ext_getElem
    · simp
    · intro i h₁ h₂
      simp
  unfold LibHotStuff.QuorumCert.signers toCore setBits
  dsimp only
  rw [hzip, List.filterMap_map, List.filterMap_filter]
  apply List.filterMap_congr
  intro i _
  simp only [Function.comp_apply]
  split
  · rfl
  · rfl

/-- The ids in a decoded certificate, each once, are the keys of `sigs`. -/
theorem signers_count [DecidableEq H] {name : UInt256 → H} {qc : QuorumCert Sig}
    (hmem : ∀ rid, rid ∈ qc.sigs ↔ ∃ i ∈ setBits qc.rids, key i = rid) :
    ((qc.toCore name).signers.map Prod.fst).dedup.length = qc.sigs.keys.card := by
  rw [← List.card_toFinset]
  congr 1
  ext rid
  rw [List.mem_toFinset, signers_toCore, Finmap.mem_keys, hmem, List.mem_map]
  constructor
  · intro h
    obtain ⟨entry, hentry, hrid⟩ := h
    obtain ⟨i, hi, hsome⟩ := List.mem_filterMap.mp hentry
    obtain ⟨sig, _, hpair⟩ := Option.map_eq_some_iff.mp hsome
    exact ⟨i, hi, by rw [← hrid, ← hpair]⟩
  · intro h
    obtain ⟨i, hi, hkey⟩ := h
    obtain ⟨sig, hsig⟩ := Option.isSome_iff_exists.mp
      (Finmap.lookup_isSome.mpr ((hmem (key i)).mpr ⟨i, hi, rfl⟩))
    exact ⟨(key i, sig), List.mem_filterMap.mpr ⟨i, hi, by rw [hsig]; rfl⟩, hkey⟩

theorem checkSigs_toCore [DecidableEq H] {P : Primitives H Sig} {name : UInt256 → H}
    {cfg : LibHotStuff.ReplicaConfig} {objHash : UInt256} {is : List Nat} {sigs : Sigs Sig}
    (hmap : ∀ rid, (config.replicaMap rid).isSome = true ↔ rid < cfg.nreplicas)
    (hsig : ∀ rid pubkey sig, config.replicaMap rid = some pubkey →
      P.verifySig rid (name objHash) sig = F.verifySig pubkey objHash sig)
    (hmem : ∀ i ∈ is, key i ∈ sigs) :
    LibHotStuff.QuorumCert.checkSigs P cfg (name objHash)
        (is.filterMap fun i => (sigs.lookup (key i)).map fun sig => (key i, sig)) =
      (checkSigs F config objHash is sigs).1.toOption := by
  induction is with
  | nil => rfl
  | cons i is ih =>
    obtain ⟨sig, hlookup⟩ := Option.isSome_iff_exists.mp
      (Finmap.lookup_isSome.mpr (hmem i List.mem_cons_self))
    have hrest := ih fun j hj => hmem j (List.mem_cons_of_mem i hj)
    simp only [checkSigs, hlookup, List.filterMap_cons, Option.map_some,
      LibHotStuff.QuorumCert.checkSigs]
    cases hreg : config.replicaMap (key i) with
    | none =>
      have hout : cfg.nreplicas ≤ key i := by
        rw [← Nat.not_lt, ← hmap, hreg]
        exact Bool.noConfusion
      rw [if_pos hout]
      rfl
    | some pubkey =>
      have hin : ¬ cfg.nreplicas ≤ key i := by
        rw [Nat.not_le, ← hmap, hreg]
        rfl
      rw [if_neg hin, hsig _ pubkey sig hreg]
      dsimp only
      split
      · exact hrest
      · rfl

/-- The core's certificate verifies as the decoded one does. -/
theorem verify_toCore [DecidableEq H] {P : Primitives H Sig} {name : UInt256 → H}
    {cfg : LibHotStuff.ReplicaConfig} {qc : QuorumCert Sig} {bs rest : Bytes}
    (hparse : unserialize F bs = .ok (qc, rest)) (hmajority : cfg.nmajority = config.nmajority)
    (hmap : ∀ rid, (config.replicaMap rid).isSome = true ↔ rid < cfg.nreplicas)
    (hsig : ∀ rid pubkey sig, config.replicaMap rid = some pubkey →
      P.verifySig rid (name qc.objHash) sig = F.verifySig pubkey qc.objHash sig) :
    (qc.toCore name).verify P cfg = (qc.verify F config).1.toOption := by
  have hmem := unserialize_mem hparse
  unfold LibHotStuff.QuorumCert.verify verify
  rw [signers_count hmem, hmajority]
  split
  · rfl
  · rw [signers_toCore]
    exact checkSigs_toCore hmap hsig fun i hi => (hmem (key i)).mpr ⟨i, hi, rfl⟩

end Core

end LibHotStuff.Wire.QuorumCert
