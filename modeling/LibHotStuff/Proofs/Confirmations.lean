import LibHotStuff.Model.Client
import LibHotStuff.Proofs.Replies

/-! What a client may rely on when it has got enough responses. -/

namespace LibHotStuff

variable {H Sig C : Type} [DecidableEq H]

namespace DummyBase

variable {a a' a'' : DummyBase H C}

/-- Nothing is submitted, and calls of callbacks are added at the end. -/
def Grows (a a' : DummyBase H C) : Prop :=
  a'.submitted = a.submitted ∧ a.replies <+: a'.replies

omit [DecidableEq H] in
theorem Grows.refl (a : DummyBase H C) : a.Grows a := ⟨rfl, List.prefix_rfl⟩

omit [DecidableEq H] in
theorem Grows.trans (h : a.Grows a') (h' : a'.Grows a'') : a.Grows a'' :=
  ⟨h'.1.trans h.1, h.2.trans h'.2⟩

end DummyBase

/-- Commands of clients are told apart by their hashes. -/
theorem Clients.getHash_injective {A : Type} (K : Clients A) {cid n cid' n' : UInt32}
    (h : K.getHash cid n = K.getHash cid' n') : cid = cid' ∧ n = n' := by
  have hserial := K.sha256_injective _ _ _ _ h
  have hput {a b : UInt32} (heq : DataStream.putUInt32 a.toNat = DataStream.putUInt32 b.toNat) :
      a = b := by
    have hmod (a : UInt32) : a.toNat % 2 ^ 32 = a.toNat := Nat.mod_eq_of_lt a.toNat_lt
    have hvalue := congrArg Codec.leValue heq
    rw [DataStream.putUInt32, DataStream.putUInt32, hmod, hmod,
      Codec.leValue_leBytes a.toNat_lt, Codec.leValue_leBytes b.toNat_lt] at hvalue
    exact UInt32.toNat_inj.mp hvalue
  obtain ⟨hcid, hn⟩ := List.append_inj hserial (by simp [DataStream.putUInt32, Codec.leBytes_length])
  exact ⟨hput hcid, hput hn⟩

namespace Client

variable {c c' : Client} {cmd : UInt256}

/-- What `try_send` changes. -/
theorem trySend_some {A : Type} {K : Clients A} (h : c.trySend K = some (cmd, c')) :
    cmd = K.getHash c.cid c.cnt ∧ c'.cid = c.cid ∧ c'.cnt = c.cnt + 1 ∧ c'.nfaulty = c.nfaulty ∧
      c'.confirmed = c.confirmed ∧ ∀ p ∈ c'.waiting, p ∈ c.waiting ∨ p = (cmd, 0) := by
  simp only [trySend, Option.ite_none_right_eq_some, Option.some.injEq, Prod.mk.injEq] at h
  obtain ⟨_, rfl, rfl⟩ := h
  refine ⟨rfl, rfl, rfl, rfl, rfl, fun p hp => ?_⟩
  dsimp only at hp
  split at hp
  · exact Or.inl hp
  · exact (List.mem_append.mp hp).imp_right List.mem_singleton.mp

/-- What a response changes: its command is counted once more, or it is confirmed. -/
theorem respCmdHandler_keeps (c : Client) (cmd : UInt256) :
    (c.respCmdHandler cmd).cid = c.cid ∧ (c.respCmdHandler cmd).cnt = c.cnt ∧
      (c.respCmdHandler cmd).nfaulty = c.nfaulty := by
  unfold respCmdHandler
  split
  · exact ⟨rfl, rfl, rfl⟩
  · split <;> exact ⟨rfl, rfl, rfl⟩

theorem respCmdHandler_waiting {k : UInt256} {m : Nat} (h : (k, m) ∈ (c.respCmdHandler cmd).waiting) :
    (k, m) ∈ c.waiting ∨ (k = cmd ∧ ∃ m', (k, m') ∈ c.waiting ∧ m = m' + 1) := by
  unfold respCmdHandler at h
  split at h
  · exact Or.inl h
  · split at h
    · obtain ⟨⟨k', m'⟩, hp, heq⟩ := List.mem_map.mp h
      dsimp only at heq
      split at heq
      · rename_i hk
        obtain ⟨rfl, rfl⟩ := Prod.mk.inj heq
        exact Or.inr ⟨hk, m', hp, rfl⟩
      · obtain ⟨rfl, rfl⟩ := Prod.mk.inj heq
        exact Or.inl hp
    · exact Or.inl (List.mem_of_mem_filter h)

theorem respCmdHandler_confirmed {k : UInt256} (h : k ∈ (c.respCmdHandler cmd).confirmed) :
    k ∈ c.confirmed ∨ (k = cmd ∧ ∃ m, (k, m) ∈ c.waiting ∧ c.nfaulty < m + 1) := by
  unfold respCmdHandler at h
  split at h
  · exact Or.inl h
  · rename_i k' m hfind
    split at h
    · exact Or.inl h
    · rename_i hle
      obtain h | h := List.mem_append.mp h
      · exact Or.inl h
      · obtain rfl := List.mem_singleton.mp h
        obtain rfl : k' = k := by simpa using List.find?_some hfind
        exact Or.inr ⟨rfl, m, List.mem_of_find?_eq_some hfind, Nat.lt_of_not_le hle⟩

end Client

variable [DecidableEq Sig] {P : Primitives H Sig} {D : Deployment}

namespace ClientSys

variable {A : Type} [DecidableEq A] {K : Clients A} {dummy : QuorumCert H Sig} {blkSize : Nat}
  {fixed : Option ReplicaID}
  {x x' : ClientSys H Sig A}

/-- The commands that are on their way to a replica. -/
def asked (x : ClientSys H Sig A) (r : ReplicaID) : List UInt256 :=
  x.requests.filterMap fun q => if q.1 = r then some q.2.1 else none

/-- The replicas of which a client has got responses about a command. -/
def responders (x : ClientSys H Sig A) (i : A) (cmd : UInt256) : List ReplicaID :=
  x.responses.filterMap fun q => if q.1 = i ∧ q.2.1 = cmd then some q.2.2 else none

omit [DecidableEq H] [DecidableEq Sig] in
/-- One of some replicas gets one message. -/
theorem filterMap_single {l : List ReplicaID} (h : l.Nodup) (r : ReplicaID) (cmd : UInt256) :
    (l.filterMap fun r' => if r' = r then some cmd else none).Sublist [cmd] := by
  induction l with
  | nil => exact List.nil_sublist _
  | cons r' l ih =>
    obtain ⟨hnot, h⟩ := List.nodup_cons.mp h
    rw [List.filterMap_cons]
    by_cases hr : r' = r
    · have hnone : (l.filterMap fun r' => if r' = r then some cmd else none) = [] := by
        rw [List.filterMap_eq_nil_iff]
        intro b hb
        refine if_neg fun heq : b = r => hnot ?_
        rwa [hr, ← heq]
      simp [hr, hnone]
    · simpa [hr] using ih h

/-- Each command is sent once to each replica. -/
structure Asks (K : Clients A) (x : ClientSys H Sig A) : Prop where
  cid : ∀ i, (x.client i).cid = K.cid i
  submitted : ∀ r cmd i, (cmd, i) ∈ (x.replicas.base r).submitted →
    ∃ n < (x.client i).cnt, cmd = K.getHash (K.cid i) n
  requests : ∀ r cmd i, (r, cmd, i) ∈ x.requests →
    ∃ n < (x.client i).cnt, cmd = K.getHash (K.cid i) n
  once : ∀ r, ((x.replicas.base r).submitted.map Prod.fst ++ x.asked r).Nodup

/-- Responses are counted, and each is of another replica. -/
structure Counts (D : Deployment) (x : ClientSys H Sig A) : Prop where
  accounted : x.replicas.Accounted
  correct : ∀ i cmd r, (i, cmd, r) ∈ x.responses → D.Correct r → ∃ place call,
    (r, place) ∈ x.taken ∧ (x.replicas.base r).replies[place]? = some (i, call) ∧
      call.cmdHash = cmd
  range : ∀ i cmd r, (i, cmd, r) ∈ x.responses → r < D.n
  distinct : x.responses.Nodup
  nfaulty : ∀ i, (x.client i).nfaulty = (D.n - 1) / 3
  waiting : ∀ i cmd k, (cmd, k) ∈ (x.client i).waiting → k ≤ (x.responders i cmd).length
  confirmed : ∀ i, ∀ cmd ∈ (x.client i).confirmed,
    (D.n - 1) / 3 < (x.responders i cmd).length

omit [DecidableEq H] [DecidableEq Sig] [DecidableEq A] in
theorem mem_asked {r : ReplicaID} {cmd : UInt256} :
    cmd ∈ x.asked r ↔ ∃ i, (r, cmd, i) ∈ x.requests := by
  simp only [asked, List.mem_filterMap, Option.ite_none_right_eq_some, Option.some.injEq]
  constructor
  · rintro ⟨⟨_, _, i⟩, hq, rfl, rfl⟩
    exact ⟨i, hq⟩
  · rintro ⟨i, hq⟩
    exact ⟨_, hq, rfl, rfl⟩

omit [DecidableEq H] [DecidableEq Sig] [DecidableEq A] in
/-- A command that is sent to all replicas is on its way to each of them once. -/
theorem asked_request (x : ClientSys H Sig A) (n : Nat) (r : ReplicaID) (cmd : UInt256) (i : A) :
    (asked { x with requests := x.requests ++ (List.range n).map fun r => (r, cmd, i) } r).Sublist
      (x.asked r ++ [cmd]) := by
  unfold asked
  rw [List.filterMap_append, List.filterMap_map]
  exact (filterMap_single List.nodup_range r cmd).append_left _

omit [DecidableEq H] [DecidableEq Sig] in
/-- A response about a command adds its replica. -/
theorem responders_getResponse (i i' : A) (cmd cmd' : UInt256) (r : ReplicaID) :
    (x.getResponse i cmd r).responders i' cmd' =
      if i = i' ∧ cmd = cmd' then r :: x.responders i' cmd' else x.responders i' cmd' := by
  simp only [getResponse, responders, List.filterMap_cons]
  split <;> rename_i h
  · rw [if_neg (by simpa using h)]
  · simp only [Option.ite_none_right_eq_some, Option.some.injEq] at h
    rw [if_pos h.1, h.2]


omit [DecidableEq H] [DecidableEq Sig] in
/-- A request that is about a command of a client comes once. -/
theorem Asks.request (h : x.Asks K) {r : ReplicaID} {cmd : UInt256} {i : A}
    (hmem : (r, cmd, i) ∈ x.requests) {replicas : DummySys H Sig A}
    (hstep : replicas = x.replicas.set r ((x.replicas.base r).execCommand cmd i)) :
    Asks K { x with replicas := replicas, requests := x.requests.erase (r, cmd, i) } := by
  subst hstep
  have hperm := List.perm_cons_erase hmem
  refine ⟨h.cid, fun r' cmd' i' hsub => ?_, fun r' cmd' i' hreq => ?_, fun r' => ?_⟩
  · by_cases hr : r' = r
    · subst hr
      simp only [Paced.set, Function.update_self, DummyBase.execCommand, List.mem_append] at hsub
      obtain hsub | hsub := hsub
      · exact h.submitted r' cmd' i' hsub
      · obtain ⟨rfl, rfl⟩ := Prod.mk.inj (List.mem_singleton.mp hsub)
        exact h.requests r' cmd' i' hmem
    · simp only [Paced.set, Function.update_of_ne hr] at hsub
      exact h.submitted r' cmd' i' hsub
  · exact h.requests r' cmd' i' (List.mem_of_mem_erase hreq)
  · have hasked := hperm.filterMap fun q => if q.1 = r' then some q.2.1 else none
    refine (List.Perm.nodup_iff ?_).mp (h.once r')
    by_cases hr : r' = r
    · subst hr
      simp only [Paced.set, Function.update_self, DummyBase.execCommand, List.map_append,
        List.map_singleton, List.append_assoc]
      refine List.Perm.append_left _ ?_
      simpa [asked] using hasked
    · simp only [Paced.set, Function.update_of_ne hr]
      refine List.Perm.append_left _ ?_
      simpa [asked, Ne.symm hr] using hasked

omit [DecidableEq H] [DecidableEq Sig] in
/-- A client sends its next command to all replicas. -/
theorem Asks.trySend (hcids : Function.Injective K.cid) (h : x.Asks K) {i : A} {cmd : UInt256}
    {c : Client}
    (hsend : (x.client i).trySend K = some (cmd, c))
    (hcnt : (x.client i).cnt.toNat + 1 < 2 ^ 32) :
    Asks K { x with
      client := Function.update x.client i c
      requests := x.requests ++ (List.range D.n).map fun r => (r, cmd, i) } := by
  obtain ⟨rfl, hcid, hnext, _⟩ := Client.trySend_some hsend
  rw [h.cid i] at hcid ⊢
  have hlt : (x.client i).cnt < (x.client i).cnt + 1 := by
    rw [UInt32.lt_iff_toNat_lt, UInt32.toNat_add]
    simp only [UInt32.toNat_one]
    omega
  -- the counter grows, so the command is new
  have hold {cmd : UInt256} {i' : A}
      (hsent : ∃ n < (x.client i').cnt, cmd = K.getHash (K.cid i') n) :
      (∃ n < (Function.update x.client i c i').cnt, cmd = K.getHash (K.cid i') n) ∧
        cmd ≠ K.getHash (K.cid i) (x.client i).cnt := by
    obtain ⟨n, hn, rfl⟩ := hsent
    refine ⟨⟨n, ?_, rfl⟩, fun heq => ?_⟩
    · by_cases hc : i' = i
      · subst hc
        rw [Function.update_self, hnext]
        exact UInt32.lt_trans hn hlt
      · rwa [Function.update_of_ne hc]
    · obtain ⟨hcid, rfl⟩ := K.getHash_injective heq
      obtain rfl := hcids hcid
      exact UInt32.lt_irrefl _ hn
  refine ⟨fun i' => ?_, fun r cmd i' hsub => (hold (h.submitted r cmd i' hsub)).1,
    fun r cmd i' hreq => ?_, fun r => ?_⟩
  · by_cases hc : i' = i
    · subst hc
      simpa using hcid
    · simpa [hc] using h.cid i'
  · obtain hreq | hreq := List.mem_append.mp hreq
    · exact (hold (h.requests r cmd i' hreq)).1
    · obtain ⟨_, _, heq⟩ := List.mem_map.mp hreq
      simp only [Prod.mk.injEq] at heq
      obtain ⟨_, rfl, rfl⟩ := heq
      refine ⟨(x.client i).cnt, ?_, rfl⟩
      dsimp only
      rwa [Function.update_self, hnext]
  · have hnew : K.getHash (K.cid i) (x.client i).cnt ∉
        (x.replicas.base r).submitted.map Prod.fst ++ x.asked r := by
      intro hmem
      obtain hmem | hmem := List.mem_append.mp hmem
      · obtain ⟨⟨cmd, i'⟩, hsub, heq⟩ := List.mem_map.mp hmem
        exact (hold (h.submitted r cmd i' hsub)).2 heq
      · obtain ⟨i', hreq⟩ := mem_asked.mp hmem
        exact (hold (h.requests r _ i' hreq)).2 rfl
    refine List.Nodup.sublist ((asked_request x D.n r _ i).append_left _) ?_
    rw [← List.append_assoc]
    refine List.nodup_append.mpr ⟨h.once r, List.nodup_singleton _, ?_⟩
    rintro a ha b hb rfl
    rw [List.mem_singleton.mp hb] at ha
    exact hnew ha

omit [DecidableEq H] [DecidableEq Sig] [DecidableEq A] in
/-- What replicas and responses do is no request. -/
theorem Asks.of_eq (h : x.Asks K)
    (hbase : ∀ r, (x.replicas.base r).Grows (x'.replicas.base r)) (hreq : x'.requests = x.requests)
    (hclient : ∀ i, (x'.client i).cid = (x.client i).cid ∧
      (x'.client i).cnt = (x.client i).cnt) : x'.Asks K := by
  refine ⟨fun i => (hclient i).1.trans (h.cid i), fun r cmd i hsub => ?_,
    fun r cmd i hr => ?_, fun r => ?_⟩
  · rw [(hclient i).2]
    exact h.submitted r cmd i ((hbase r).1 ▸ hsub)
  · rw [(hclient i).2]
    exact h.requests r cmd i (hreq ▸ hr)
  · rw [(hbase r).1, asked, hreq]
    exact h.once r

omit [DecidableEq H] [DecidableEq Sig] in
/-- A client gets a response of a replica that has not sent it one about the command. -/
theorem Counts.getResponse (h : x.Counts D) {i : A} {cmd : UInt256} {r : ReplicaID}
    (hr : r < D.n) (hnew : (i, cmd, r) ∉ x.responses)
    (hcorrect : D.Correct r → ∃ place call, (r, place) ∈ x.taken ∧
      (x.replicas.base r).replies[place]? = some (i, call) ∧ call.cmdHash = cmd) :
    (x.getResponse i cmd r).Counts D := by
  have hclient (i' : A) : (x.getResponse i cmd r).client i' =
      if i' = i then (x.client i).respCmdHandler cmd else x.client i' :=
    Function.update_apply _ _ _ _
  have hmore (i' : A) (cmd' : UInt256) : (x.responders i' cmd').length ≤
      ((x.getResponse i cmd r).responders i' cmd').length := by
    rw [responders_getResponse]
    split
    · exact Nat.le_succ _
    · exact Nat.le_refl _
  have hone : ((x.getResponse i cmd r).responders i cmd).length =
      (x.responders i cmd).length + 1 := by
    rw [responders_getResponse, if_pos ⟨rfl, rfl⟩, List.length_cons]
  refine ⟨h.accounted, ?_, ?_, List.nodup_cons.mpr ⟨hnew, h.distinct⟩, ?_, ?_, ?_⟩
  · intro i' cmd' r' hmem hc
    obtain heq | hmem := List.mem_cons.mp hmem
    · simp only [Prod.mk.injEq] at heq
      obtain ⟨rfl, rfl, rfl⟩ := heq
      exact hcorrect hc
    · exact h.correct i' cmd' r' hmem hc
  · intro i' cmd' r' hmem
    obtain heq | hmem := List.mem_cons.mp hmem
    · simp only [Prod.mk.injEq] at heq
      obtain ⟨_, _, rfl⟩ := heq
      exact hr
    · exact h.range i' cmd' r' hmem
  · intro i'
    rw [hclient]
    split
    · rename_i hcid
      exact (Client.respCmdHandler_keeps _ _).2.2.trans (hcid ▸ h.nfaulty i')
    · exact h.nfaulty i'
  · intro i' cmd' k hmem
    rw [hclient] at hmem
    split at hmem
    · rename_i hcid
      subst hcid
      obtain hmem | ⟨rfl, k', hwait, rfl⟩ := Client.respCmdHandler_waiting hmem
      · exact (h.waiting i' cmd' k hmem).trans (hmore i' cmd')
      · rw [hone]
        exact Nat.succ_le_succ (h.waiting i' cmd' k' hwait)
    · exact (h.waiting i' cmd' k hmem).trans (hmore i' cmd')
  · intro i' cmd' hmem
    rw [hclient] at hmem
    split at hmem
    · rename_i hcid
      subst hcid
      obtain hmem | ⟨rfl, k, hwait, hlt⟩ := Client.respCmdHandler_confirmed hmem
      · exact (h.confirmed i' cmd' hmem).trans_le (hmore i' cmd')
      · rw [hone, ← h.nfaulty i']
        exact hlt.trans_le (Nat.succ_le_succ (h.waiting i' cmd' k hwait))
    · exact (h.confirmed i' cmd' hmem).trans_le (hmore i' cmd')

omit [DecidableEq H] [DecidableEq Sig] in
/-- A correct replica has sent each response for a command of its own. -/
theorem Counts.fresh (h : x.Counts D) (hasks : x.Asks K) {i : A} {call : CommitCall H}
    {r : ReplicaID} {place : Nat} (hc : D.Correct r)
    (hreply : (x.replicas.base r).replies[place]? = some (i, call)) (hnew : (r, place) ∉ x.taken) :
    (i, call.cmdHash, r) ∉ x.responses := by
  intro hmem
  obtain ⟨place', call', htaken, hreply', hcmd⟩ := h.correct _ _ _ hmem hc
  have hnodup : ((x.replicas.base r).answered.map Prod.fst).Nodup := by
    have hsub := ((h.accounted r).perm.map Prod.fst).nodup_iff.mp
      ((hasks.once r).sublist (List.sublist_append_left _ _))
    rw [List.map_append, List.map_append] at hsub
    exact (hsub.sublist (List.sublist_append_right _ _)).sublist (List.sublist_append_right _ _)
  have hat {place : Nat} {call : CommitCall H}
      (hreply : (x.replicas.base r).replies[place]? = some (i, call)) :
      ((x.replicas.base r).answered.map Prod.fst)[place]? = some call.cmdHash := by
    simp [DummyBase.answered, hreply]
  have hlt := (List.getElem?_eq_some_iff.mp (hat hreply)).1
  have heq := (hat hreply).trans ((hat hreply').trans (congrArg some hcmd)).symm
  obtain rfl := (List.getElem?_inj hlt hnodup).mp heq
  exact hnew htaken

omit [DecidableEq H] [DecidableEq Sig] in
theorem Counts.replica (h : x.Counts D) {replicas : DummySys H Sig A}
    (haccounted : replicas.Accounted) {requests : List (ReplicaID × UInt256 × A)}
    (hgrows : ∀ r, (x.replicas.base r).replies <+: (replicas.base r).replies) :
    Counts D { x with replicas := replicas, requests := requests } := by
  refine { h with accounted := haccounted, correct := fun i cmd r hmem hc => ?_ }
  obtain ⟨place, call, htaken, hreply, hcmd⟩ := h.correct i cmd r hmem hc
  have hlt := (List.getElem?_eq_some_iff.mp hreply).1
  obtain ⟨more, hmore⟩ := hgrows r
  refine ⟨place, call, htaken, ?_, hcmd⟩
  dsimp only
  rwa [← hmore, List.getElem?_append_left hlt]

omit [DecidableEq H] [DecidableEq Sig] in
theorem Counts.trySend (h : x.Counts D) {i : A} {c : Client}
    {requests : List (ReplicaID × UInt256 × A)}
    (hnfaulty : c.nfaulty = (x.client i).nfaulty)
    (hconfirmed : c.confirmed = (x.client i).confirmed)
    (hwaiting : ∀ p ∈ c.waiting, p ∈ (x.client i).waiting ∨ p.2 = 0) :
    Counts D { x with client := Function.update x.client i c, requests := requests } := by
  refine { h with
    nfaulty := fun i' => ?_, waiting := fun i' cmd k hmem => ?_
    confirmed := fun i' cmd hmem => ?_ }
  · by_cases hc : i' = i
    · subst hc
      simpa using hnfaulty.trans (h.nfaulty i')
    · simpa [hc] using h.nfaulty i'
  · by_cases hc : i' = i
    · subst hc
      simp only [Function.update_self] at hmem
      obtain hmem | hzero := hwaiting _ hmem
      · exact h.waiting i' cmd k hmem
      · dsimp only at hzero
        rw [hzero]
        exact Nat.zero_le _
    · simp only [Function.update_of_ne hc] at hmem
      exact h.waiting i' cmd k hmem
  · by_cases hc : i' = i
    · subst hc
      simp only [Function.update_self, hconfirmed] at hmem
      exact h.confirmed i' cmd hmem
    · simp only [Function.update_of_ne hc] at hmem
      exact h.confirmed i' cmd hmem

end ClientSys

namespace Concrete

theorem ofBytes_serialize_injective (cid n cid' n' : UInt32)
    (h : UInt256.ofBytes (CommandDummy.serialize cid n) =
      UInt256.ofBytes (CommandDummy.serialize cid' n')) :
    CommandDummy.serialize cid n = CommandDummy.serialize cid' n' := by
  have htake (cid n : UInt32) : (UInt256.ofBytes (CommandDummy.serialize cid n)).bytes.take 8 =
      CommandDummy.serialize cid n := by
    have hlen : (CommandDummy.serialize cid n).length = 8 := by
      simp [CommandDummy.serialize, DataStream.putUInt32, Codec.leBytes_length]
    rw [UInt256.ofBytes, List.take_take, List.take_append_of_le_length (by omega),
      List.take_of_length_le (by omega)]
  rw [← htake, h, htake]

/-- Clients that send four commands. -/
def fourCommands : Clients UInt32 where
  sha256 := UInt256.ofBytes
  cid i := i
  maxIterNum _ := 4
  maxAsyncNum _ := 4
  sha256_injective := ofBytes_serialize_injective

/-- The lists of commands of four blocks, which client 0 has sent. -/
def sentLists : List (List UInt256) := [0, 1, 2, 3].map fun n => [fourCommands.getHash 0 n]

def serving : Primitives Nat Signature := primitives queuedBlocks sentLists

/-- The Byzantine replica 3 responds twice to the first command of client 0. -/
def deceivedRun : List (ClientEvent Nat Signature UInt32) :=
  List.replicate 5 (.trySend 0) ++ List.replicate 2 (.forge 3 (fourCommands.getHash 0 0) 0)

/-- What a client has confirmed, and what the replicas have executed. -/
def deceit {A : Type} (i : A) (x : ClientSys Nat Signature A) : List UInt256 × List (List UInt256) :=
  ((x.client i).confirmed, (List.range 4).map fun r =>
    (decideLog (x.replicas.sys.node r).log).map (·.cmdHash))

theorem deceived_run : (Transition.runBy (ClientSys.step serving fourReplicas fourCommands)
    (fun _ _ => True)
    (ClientSys.init serving fourReplicas fourCommands noCert 1 (some 0)) deceivedRun).map (deceit 0) =
      some ([fourCommands.getHash 0 0], [[], [], [], []]) := by
  decide +kernel

/-- One Byzantine replica that responds twice makes a client confirm a command that no replica has
executed. -/
theorem confirmed_unexecuted : ∃ x : ClientSys Nat Signature UInt32,
    x.ReachableBy serving fourReplicas fourCommands noCert 1 (some 0) (fun _ _ => True) ∧
      deceit 0 x = ([fourCommands.getHash 0 0], [[], [], [], []]) :=
  Transition.runBy_map_reaches deceived_run

/-- A client that has been started again with the same `cid`. -/
def restarted : Clients Bool := { fourCommands with
  cid := fun _ => 0, maxIterNum := fun _ => 4, maxAsyncNum := fun _ => 4 }

/-- The first client has sent its first command, and the replicas 1 and 2 wait for its decision when
the same command comes from the second one. -/
def restartedRun : List (ClientEvent Nat Signature Bool) :=
  List.replicate 5 (.trySend false) ++ List.replicate 5 (.trySend true) ++
    ([false, true].flatMap fun i => [1, 2].flatMap fun r =>
      [.request r (restarted.getHash 0 0) i, .replica (.handleCommand r)]) ++
    [.respond 1 0, .respond 2 0]

theorem restarted_run : (Transition.runBy (ClientSys.step serving fourReplicas restarted)
    (fun x e => x.fair e = true)
    (ClientSys.init serving fourReplicas restarted noCert 1 (some 0)) restartedRun).map (deceit true) =
      some ([restarted.getHash 0 0], [[], [], [], []]) := by
  decide +kernel

/-- When two clients have the same `cid`, one of them confirms a command that no replica has executed:
each replica answers the second one at once. -/
theorem confirmed_unexecuted_restarted : ∃ x : ClientSys Nat Signature Bool,
    x.ReachableBy serving fourReplicas restarted noCert 1 (some 0) (fun x e => x.fair e = true) ∧
      deceit true x = ([restarted.getHash 0 0], [[], [], [], []]) :=
  Transition.runBy_map_reaches restarted_run

end Concrete
end LibHotStuff
