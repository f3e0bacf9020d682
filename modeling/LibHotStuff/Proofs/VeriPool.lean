import LibHotStuff.Model.Delivery
import LibHotStuff.Model.VeriPool
import LibHotStuff.Proofs.WireCertificate

/-! The two ways to verify a certificate, at once and by the workers of a `VeriPool`. -/

namespace LibHotStuff.Wire

variable {PubKey Sig : Type} {F : Formats PubKey Sig} {config : ReplicaConfig PubKey}

namespace Verdict

/-- Whatever tasks finish, each once and in any order, the promise is settled by the last one of all,
with this value. -/
def Resolves (F : Formats PubKey Sig) (s : Verdict PubKey Sig) (v : Bool) : Prop :=
  ∀ order : List Nat, order.Nodup → (∀ i ∈ order, i < s.tasks.length) →
    ∃ s', order.foldlM (finish F) s = some s' ∧
      s'.settled = if order.length = s.tasks.length then some v else none

/-- After some tasks have finished. -/
structure Collected (F : Formats PubKey Sig) (tasks : List (VeriTask PubKey Sig)) (done : List Nat)
    (s : Verdict PubKey Sig) : Prop where
  same : s.tasks = tasks
  results : ∀ i, s.results[i]? = (tasks[i]?).map fun task =>
    if i ∈ done then some (task.verify F) else none
  size : s.size = tasks.length - done.length
  settled : s.settled = if done.length = tasks.length then some (tasks.all (VeriTask.verify F)) else none

variable {tasks : List (VeriTask PubKey Sig)} {done : List Nat} {s : Verdict PubKey Sig}

theorem resolves_resolved (F : Formats PubKey Sig) (v : Bool) :
    (resolved v : Verdict PubKey Sig).Resolves F v := by
  intro order _ hlt
  have hnil : order = [] := by
    apply List.eq_nil_iff_forall_not_mem.mpr
    intro i hi
    exact absurd (hlt i hi) (Nat.not_lt_zero i)
  subst hnil
  exact ⟨resolved v, rfl, rfl⟩

/-- Tasks that have all finished are those of the list. -/
theorem mem_of_done (hnd : done.Nodup) (hlt : ∀ i ∈ done, i < tasks.length)
    (hall : done.length = tasks.length) {i : Nat} (hi : i < tasks.length) : i ∈ done := by
  have hsub : done ⊆ List.range tasks.length := fun j hj => List.mem_range.mpr (hlt j hj)
  have hperm := (hnd.subperm hsub).perm_of_length_le (by rw [List.length_range, hall])
  exact hperm.mem_iff.mpr (List.mem_range.mpr hi)

/-- One more task finishes. -/
theorem Collected.finish (h : s.Collected F tasks done) (hnd : done.Nodup)
    (hlt : ∀ i ∈ done, i < tasks.length) {i : Nat} (hi : i < tasks.length) (hnew : i ∉ done) :
    ∃ s', s.finish F i = some s' ∧ s'.Collected F tasks (i :: done) := by
  have hmissing : done.length < tasks.length := by
    by_contra hge
    have hsub : done ⊆ List.range tasks.length := fun j hj => List.mem_range.mpr (hlt j hj)
    have hle := (hnd.subperm hsub).length_le
    rw [List.length_range] at hle
    exact hnew (mem_of_done hnd hlt (by omega) hi)
  have htask : s.tasks[i]? = some tasks[i] := by rw [h.same, List.getElem?_eq_getElem hi]
  have hresult : s.results[i]? = some none := by
    rw [h.results, List.getElem?_eq_getElem hi, Option.map_some, if_neg hnew]
  have hresults (j : Nat) : (s.results.set i (some (tasks[i].verify F)))[j]? =
      (tasks[j]?).map fun task => if j ∈ i :: done then some (task.verify F) else none := by
    by_cases hj : i = j
    · subst hj
      rw [List.getElem?_set_self (List.getElem?_eq_some_iff.mp hresult).1, List.getElem?_eq_getElem hi,
        Option.map_some, if_pos List.mem_cons_self]
    · rw [List.getElem?_set_ne hj, h.results]
      simp only [List.mem_cons, Ne.symm hj, false_or]
  unfold Verdict.finish
  simp only [htask, hresult]
  refine ⟨_, rfl, h.same, hresults, ?_, ?_⟩
  · dsimp only
    rw [h.size, List.length_cons]
    omega
  · have hsize : s.size - 1 = 0 ↔ (i :: done).length = tasks.length := by
      rw [h.size, List.length_cons]
      omega
    by_cases hlast : (i :: done).length = tasks.length
    · rw [if_pos (hsize.mpr hlast), if_pos hlast]
      have hcons : (i :: done).Nodup := List.nodup_cons.mpr ⟨hnew, hnd⟩
      have hconslt : ∀ j ∈ i :: done, j < tasks.length := by
        intro j hj
        obtain rfl | hj := List.mem_cons.mp hj
        · exact hi
        · exact hlt j hj
      have heq : s.results.set i (some (tasks[i].verify F)) =
          tasks.map fun task => some (task.verify F) := by
        apply List.ext_getElem?
        intro j
        rw [hresults, List.getElem?_map]
        by_cases hj : j < tasks.length
        · rw [List.getElem?_eq_getElem hj, Option.map_some, Option.map_some,
            if_pos (mem_of_done hcons hconslt hlast hj)]
        · rw [List.getElem?_eq_none (Nat.le_of_not_lt hj)]
          rfl
      have hverify : ((fun v => v == some true) ∘ fun task : VeriTask PubKey Sig =>
          some (task.verify F)) = VeriTask.verify F := by
        funext task
        rw [Function.comp_apply]
        cases task.verify F <;> rfl
      rw [heq, List.all_map, hverify]
    · rw [if_neg (mt hsize.mp hlast), if_neg hlast, h.settled, if_neg (Nat.ne_of_lt hmissing)]

/-- The tasks that are left finish in any order. -/
theorem Collected.foldlM (h : s.Collected F tasks done) {order : List Nat}
    (hnd : (done ++ order).Nodup) (hlt : ∀ i ∈ done ++ order, i < tasks.length) :
    ∃ s' done', order.foldlM (Verdict.finish F) s = some s' ∧ s'.Collected F tasks done' ∧
      done'.length = done.length + order.length := by
  induction order generalizing s done with
  | nil => exact ⟨s, done, rfl, h, rfl⟩
  | cons i order ih =>
    have hperm : (done ++ i :: order).Perm (i :: done ++ order) := List.perm_middle
    obtain ⟨hdone, _, hdisjoint⟩ := List.nodup_append.mp hnd
    have hi : i ∈ done ++ i :: order := List.mem_append_right done List.mem_cons_self
    have hnew : i ∉ done := fun hmem => hdisjoint i hmem i List.mem_cons_self rfl
    obtain ⟨s₁, hfinish, h₁⟩ :=
      h.finish hdone (fun j hj => hlt j (List.mem_append_left _ hj)) (hlt i hi) hnew
    obtain ⟨s', done', hfold, hcollected, hlength⟩ := ih h₁ (hperm.nodup_iff.mp hnd)
      fun j hj => hlt j (hperm.mem_iff.mpr hj)
    refine ⟨s', done', ?_, hcollected, ?_⟩
    · rw [List.foldlM_cons, hfinish]
      exact hfold
    · rw [hlength, List.length_cons, List.length_cons]
      omega

/-- `all` waits for every task and then finds whether all have verified. -/
theorem resolves_all (F : Formats PubKey Sig) {tasks : List (VeriTask PubKey Sig)} (hne : tasks ≠ []) :
    ∃ s, all tasks = .ok s ∧ s.Resolves F (tasks.all (VeriTask.verify F)) := by
  have hpos := List.length_pos_of_ne_nil hne
  have hempty : tasks.isEmpty = false := List.isEmpty_eq_false_iff.mpr hne
  refine ⟨_, by rw [all, hempty]; rfl, fun order hnd hlt => ?_⟩
  have hstart : Collected F tasks []
      { tasks := tasks, results := tasks.map fun _ => none, size := tasks.length, settled := none } := by
    refine ⟨rfl, fun i => ?_, rfl, ?_⟩
    · rw [List.getElem?_map]
      rfl
    · rw [List.length_nil, if_neg (Nat.ne_of_lt hpos)]
  obtain ⟨s', done', hfold, hcollected, hlength⟩ := hstart.foldlM hnd hlt
  refine ⟨s', hfold, ?_⟩
  rw [hcollected.settled, hlength, List.length_nil, Nat.zero_add]

end Verdict

namespace QuorumCert

/-- The verifiers agree: the one returns, and the promise of the other is resolved with the same. -/
def VerifiersAgree (F : Formats PubKey Sig) (config : ReplicaConfig PubKey) (qc : QuorumCert Sig) : Prop :=
  ∃ v, (qc.verify F config).1 = .ok v ∧
    ∃ s, (qc.asyncVerify F config).1 = .ok s ∧ s.Resolves F v

/-- There are too few signatures for either of them to look at one, or all are of registered
replicas. -/
def Checkable (config : ReplicaConfig PubKey) (qc : QuorumCert Sig) : Prop :=
  qc.sigs.keys.card < config.nmajority ∨
    ∀ i ∈ setBits qc.rids, (config.replicaMap (key i)).isSome

/-- When the signers are registered, a task is made of each signature, and the tasks verify when the
loop comes to its end. -/
theorem queueTasks_registered (F : Formats PubKey Sig) (objHash : UInt256) {is : List Nat}
    {sigs : Sigs Sig} (hmem : ∀ i ∈ is, key i ∈ sigs) (hreg : ∀ i ∈ is, (config.replicaMap (key i)).isSome) :
    ∃ tasks, queueTasks config F objHash is sigs = (.ok tasks, sigs) ∧ tasks.length = is.length ∧
      (checkSigs F config objHash is sigs).1 = .ok (tasks.all (VeriTask.verify F)) := by
  induction is with
  | nil => exact ⟨[], rfl, rfl, rfl⟩
  | cons i is ih =>
    obtain ⟨sig, hsig⟩ := Option.isSome_iff_exists.mp
      (Finmap.lookup_isSome.mpr (hmem i List.mem_cons_self))
    obtain ⟨pubkey, hpubkey⟩ := Option.isSome_iff_exists.mp (hreg i List.mem_cons_self)
    obtain ⟨tasks, hqueue, hlength, hcheck⟩ := ih (fun j hj => hmem j (List.mem_cons_of_mem i hj))
      fun j hj => hreg j (List.mem_cons_of_mem i hj)
    refine ⟨{ msg := objHash, pubkey := pubkey, sig := sig } :: tasks, ?_, ?_, ?_⟩
    · simp only [queueTasks, hsig, hpubkey, hqueue]
      rfl
    · rw [List.length_cons, List.length_cons, hlength]
    · simp only [checkSigs, hsig, hpubkey, List.all_cons, VeriTask.verify]
      cases F.verifySig pubkey objHash sig with
      | false => rfl
      | true =>
        rw [if_pos rfl, Bool.true_and]
        exact hcheck

/-- A set bit of an unknown replica makes the loop over all bits throw. -/
theorem queueTasks_unregistered (F : Formats PubKey Sig) (objHash : UInt256) {is : List Nat}
    (sigs : Sigs Sig) {i : Nat} (hi : i ∈ is) (hnone : config.replicaMap (key i) = none) :
    (queueTasks config F objHash is sigs).1 = .error (.throw .ridNotFound) := by
  induction is generalizing sigs with
  | nil => cases hi
  | cons j is ih =>
    rw [queueTasks]
    dsimp only
    cases hreg : config.replicaMap (key j) with
    | none => rfl
    | some pubkey =>
      have hlater : i ∈ is := by
        obtain rfl | hlater := List.mem_cons.mp hi
        · rw [hnone] at hreg
          cases hreg
        · exact hlater
      dsimp only
      rw [ih _ hlater]
      rfl

/-- A certificate with enough signatures has a set bit. -/
theorem tasks_ne_nil {bs rest : Bytes} {qc : QuorumCert Sig}
    (hparse : unserialize F bs = .ok (qc, rest)) (hpos : 1 ≤ config.nmajority)
    (hmany : ¬ qc.sigs.keys.card < config.nmajority) {tasks : List (VeriTask PubKey Sig)}
    (hlength : tasks.length = (setBits qc.rids).length) : tasks ≠ [] := by
  have hcard : qc.sigs.keys.card ≠ 0 := by omega
  obtain ⟨rid, hrid⟩ := Finset.card_ne_zero.mp hcard
  obtain ⟨i, hi, _⟩ := (unserialize_mem hparse rid).mp (Finmap.mem_keys.mp hrid)
  have hbit := List.length_pos_of_mem hi
  exact List.ne_nil_of_length_pos (by omega)

/-- The two certificate verifiers agree on a decoded certificate exactly when each set bit stands for
a registered replica, or the signatures are too few anyway. -/
theorem verifiers_agree_iff (F : Formats PubKey Sig) (config : ReplicaConfig PubKey)
    (bs rest : Bytes) (qc : QuorumCert Sig) (hparse : unserialize F bs = .ok (qc, rest))
    (hmajority : 1 ≤ config.nmajority) : VerifiersAgree F config qc ↔ Checkable config qc := by
  have hmem : ∀ i ∈ setBits qc.rids, key i ∈ qc.sigs := fun i hi =>
    (unserialize_mem hparse (key i)).mpr ⟨i, hi, rfl⟩
  unfold VerifiersAgree Checkable verify asyncVerify
  by_cases hfew : qc.sigs.keys.card < config.nmajority
  · rw [if_pos hfew, if_pos hfew]
    exact ⟨fun _ => Or.inl hfew, fun _ => ⟨false, rfl, _, rfl, Verdict.resolves_resolved F false⟩⟩
  rw [if_neg hfew, if_neg hfew]
  constructor
  · rintro ⟨_, _, s, hasync, _⟩
    refine Or.inr fun i hi => ?_
    by_contra hno
    have hthrow := queueTasks_unregistered F qc.objHash qc.sigs hi
      (Option.not_isSome_iff_eq_none.mp hno)
    dsimp only at hasync
    rw [hthrow] at hasync
    cases hasync
  · intro hreg
    obtain ⟨tasks, hqueue, hlength, hcheck⟩ := queueTasks_registered F qc.objHash hmem
      (hreg.resolve_left hfew)
    have hne := tasks_ne_nil hparse hmajority hfew hlength
    obtain ⟨s, hall, hresolves⟩ := Verdict.resolves_all F hne
    refine ⟨_, hcheck, s, ?_, hresolves⟩
    rw [hqueue]
    exact hall

section Core

variable {H : Type} [DecidableEq H] {name : UInt256 → H} {cfg : LibHotStuff.ReplicaConfig}
  {qc : QuorumCert Sig}

/-- The replica model, which knows a certificate by the signatures of its set bits, starts the same
verification. -/
theorem asyncVerify_toCore {bs rest : Bytes} (hparse : unserialize F bs = .ok (qc, rest))
    (hmajority : cfg.nmajority = config.nmajority) (hpos : 1 ≤ config.nmajority)
    (hmap : ∀ rid, (config.replicaMap rid).isSome = true ↔ rid < cfg.nreplicas) :
    (qc.toCore name).asyncVerify cfg =
      match (qc.asyncVerify F config).1 with
      | .error _ => .error .ridNotFound
      | .ok s => .ok s.settled := by
  have hmem := unserialize_mem hparse
  have hbits : ∀ i ∈ setBits qc.rids, key i ∈ qc.sigs := fun i hi => (hmem (key i)).mpr ⟨i, hi, rfl⟩
  unfold LibHotStuff.QuorumCert.asyncVerify asyncVerify
  rw [signers_count hmem, hmajority]
  by_cases hfew : qc.sigs.keys.card < config.nmajority
  · rw [if_pos hfew, if_pos hfew]
    rfl
  rw [if_neg hfew, if_neg hfew]
  have hsigners : ((qc.toCore name).signers.all fun s => decide (s.1 < cfg.nreplicas)) = true ↔
      ∀ i ∈ setBits qc.rids, (config.replicaMap (key i)).isSome := by
    rw [signers_toCore, List.all_eq_true]
    constructor
    · intro hall i hi
      obtain ⟨sig, hsig⟩ := Option.isSome_iff_exists.mp (Finmap.lookup_isSome.mpr (hbits i hi))
      rw [hmap]
      exact of_decide_eq_true (hall (key i, sig) (List.mem_filterMap.mpr ⟨i, hi, by rw [hsig]; rfl⟩))
    · intro hreg entry hentry
      obtain ⟨i, hi, hsome⟩ := List.mem_filterMap.mp hentry
      obtain ⟨sig, _, rfl⟩ := Option.map_eq_some_iff.mp hsome
      exact decide_eq_true ((hmap _).mp (hreg i hi))
  by_cases hreg : ∀ i ∈ setBits qc.rids, (config.replicaMap (key i)).isSome
  · obtain ⟨tasks, hqueue, hlength, _⟩ := queueTasks_registered F qc.objHash hbits hreg
    have hne : tasks ≠ [] := tasks_ne_nil hparse hpos hfew hlength
    rw [if_pos (hsigners.mpr hreg), hqueue]
    have hempty : tasks.isEmpty = false := List.isEmpty_eq_false_iff.mpr hne
    simp only [Except.bind, Verdict.all, hempty]
    rfl
  · rw [if_neg (mt hsigners.mp hreg)]
    push Not at hreg
    obtain ⟨i, hi, hno⟩ := hreg
    have hthrow := queueTasks_unregistered F qc.objHash qc.sigs hi
      (Option.not_isSome_iff_eq_none.mp hno)
    dsimp only
    rw [hthrow]
    rfl

end Core

namespace Concrete

open Wire.Concrete

/-- All three signatures of the certificate verify. -/
theorem verifiers_agree_signed : ∃ bs, unserialize formats bs = .ok (signedCert, []) ∧
    VerifiersAgree formats fourKeys signedCert := by
  obtain ⟨bs, hparse⟩ := signedCert_parse
  refine ⟨bs, hparse, (verifiers_agree_iff formats fourKeys bs [] signedCert hparse
    (by decide)).mpr (Or.inr ?_)⟩
  rw [signedCert_setBits]
  decide

/-- A configuration in which only replica 1 is registered. -/
def oneReplica : ReplicaConfig UInt256 where
  replicaMap := fun rid => if rid = 1 then some (bytes32 5) else none
  nmajority := 1

/-- A certificate with a signature of replica 1 that does not verify, and one of replica 2, which is
not registered. -/
def forgedCert : QuorumCert Sig64 where
  objHash := bytes32 5
  rids := [false, true, true]
  sigs := (Finmap.singleton 1 ⟨List.replicate 64 6, rfl⟩).insert 2 ⟨List.replicate 64 6, rfl⟩

/-- One verifier says that the certificate is wrong, and the other one throws. -/
theorem verifiers_disagree : ∃ bs, unserialize formats bs = .ok (forgedCert, []) ∧
    1 ≤ oneReplica.nmajority ∧ (forgedCert.verify formats oneReplica).1 = .ok false ∧
      (forgedCert.asyncVerify formats oneReplica).1 = .error (.throw .ridNotFound) ∧
        ¬ VerifiersAgree formats oneReplica forgedCert := by
  have hset : setBits forgedCert.rids = [1, 2] := by decide
  have hsized : forgedCert.Sized := by
    refine ⟨by decide, fun rid => ?_⟩
    rw [hset, forgedCert, Finmap.mem_insert, Finmap.mem_singleton]
    simp [key, eq_comm, or_comm]
  obtain ⟨bs, _, hreads⟩ := serialize_reads formats_lawful hsized
  have hparse : unserialize formats bs = .ok (forgedCert, []) := by
    have h := hreads []
    rwa [List.append_nil] at h
  have hverify : (forgedCert.verify formats oneReplica).1 = .ok false := by decide
  have hasync : (forgedCert.asyncVerify formats oneReplica).1 = .error (.throw .ridNotFound) := by
    have hcard : ¬ forgedCert.sigs.keys.card < oneReplica.nmajority := by decide
    rw [asyncVerify, if_neg hcard, hset]
    dsimp only
    rw [queueTasks_unregistered _ _ _ (i := 2) (by decide) rfl]
    rfl
  refine ⟨bs, hparse, Nat.le_refl 1, hverify, hasync, ?_⟩
  rintro ⟨_, _, s, hs, _⟩
  rw [hasync] at hs
  cases hs

end Concrete
end QuorumCert
end LibHotStuff.Wire
