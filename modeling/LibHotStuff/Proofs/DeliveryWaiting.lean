import LibHotStuff.Proofs.DeliveryTurns

/-! Every entry of `blk_delivery_waiting` has something to wait for, in all runs. -/

namespace LibHotStuff

open Promises

variable {H Sig : Type} {P : Primitives H Sig} [DecidableEq H]

namespace HotStuffBase

variable {b b' : HotStuffBase H Sig} {fs fs' : List (Frame H Sig)} {blk : H}
  {ctx idx : Nat} {v : Bool}

namespace Deliveries

omit [DecidableEq H] in
/-- No delivery waits for the promise. -/
theorem not_awaited {pm : Nat} (h : b.awaited pm = false) :
    (∀ ctx idx, b.promises.Holds pm (.part ctx idx) → b.delivers ctx = false) ∧
      ∀ f ∈ b.frames, pm ∉ f.collected := by
  rw [awaited, Bool.or_eq_false_iff] at h
  obtain ⟨hcallbacks, hframes⟩ := h
  refine ⟨fun ctx idx ⟨g, ks, hat, hk⟩ => ?_, fun f hf => ?_⟩
  · rw [hat] at hcallbacks
    exact Bool.eq_false_iff.mpr fun hdel =>
      absurd hdel (List.any_eq_false.mp hcallbacks _ hk)
  · have hnot := List.any_eq_false.mp hframes f hf
    rwa [decide_eq_true_eq] at hnot

theorem verifies_of_turnTold {stored : Block H Sig} (h : b.turnTold (.call (.fetched blk) v) = true)
    (hst : b.core.storage blk = some stored) :
    (blk = b.core.b0 ∨ stored.qc.objHash = b.core.b0) ∨
      stored.qc.asyncVerify b.core.config = .ok none := by
  rw [turnTold, hst, Option.all_some, Bool.or_eq_true, decide_eq_true_eq] at h
  refine h.imp_right fun hasync => ?_
  split at hasync
  · assumption
  · cases hasync

theorem awaited_of_turnTold {f : Frame H Sig} {pm : Nat} (h : b.turnTold f = true)
    (hpm : b.rejects f = some pm) : b.awaited pm = false := by
  cases f with
  | call k v =>
    cases k with
    | fetched blk => cases hpm
    | part ctx idx =>
      rw [turnTold, hpm, Option.all_some, Bool.not_eq_true'] at h
      · exact h
      · exact nofun
  | deliverParents | awaitProposal | awaitVote | onFetchBlk | eraseFetch | eraseDelivery => cases hpm

omit [DecidableEq H] in
theorem carries_congr (h : ∀ ctx, b'.delivers ctx = b.delivers ctx) (f : Frame H Sig) :
    b'.carries f = b.carries f := by
  cases f with
  | call k v =>
    cases k with
    | fetched blk => rfl
    | part ctx idx => exact h ctx
  | deliverParents | awaitProposal | awaitVote | onFetchBlk | eraseFetch | eraseDelivery => rfl

omit [DecidableEq H] in
/-- The next state of a handler. -/
theorem of_continues (h : b.Continues P b' b.frames)
    (hcarry : b.throws b' = true → ∀ f ∈ b.frames, b.carries f = false)
    (hrun : b'.stopped = false) : b'.Deliveries P b'.frames := by
  obtain hstop | ⟨gs, hframes, hd⟩ | ⟨hthrow, hnil, hd, hsame⟩ := h
  · rw [hstop] at hrun
    cases hrun
  · rw [hframes]
    exact hd
  · rw [hnil]
    refine hd.unwind fun f hf => ?_
    rw [carries_congr hsame]
    exact hcarry hthrow f hf

/-- `async_deliver_blk`, called by the handler of a message. -/
theorem asyncDeliverBlk_continues (h : b.Deliveries P fs) (hp : b.Pending P) (blk : H)
    {next : Nat → Frame H Sig} (hnext : ∀ pm, (next pm).collected = [] ∧
      (∀ k v, next pm ≠ .call k v) ∧ (∀ x, next pm ≠ .eraseFetch x) ∧
        ∀ x, next pm ≠ .eraseDelivery x) :
    b.Continues P (b.asyncDeliverBlk blk next) fs := by
  obtain ⟨gs, pm, hframes, hd, _, _⟩ := h.asyncDeliverBlk hp blk next
  obtain ⟨hcollected, hcall, hfetch, hdelivery⟩ := hnext pm
  have hpush := hd.push [next pm]
    (fun k w hw => absurd (List.mem_singleton.mp hw).symm (hcall k w)) (fun f hf q hq => ?_)
    (fun x hx => absurd (List.mem_singleton.mp hx).symm (hfetch x))
    fun x hx => absurd (List.mem_singleton.mp hx).symm (hdelivery x)
  · refine Or.inr (Or.inl ⟨gs ++ [next pm], by rw [hframes, List.append_assoc]; rfl, ?_⟩)
    rw [List.append_assoc]
    exact swap [next pm] gs hpush
  · rw [List.mem_singleton.mp hf, hcollected] at hq
    cases hq

theorem proposeHandler (h : b.Deliveries P fs) (hp : b.Pending P) (src proposer : ReplicaID)
    (sHash : H) (slice : Slice H) (data : BlockData H Sig) :
    b.Continues P (b.proposeHandler P src proposer sHash slice data) fs := by
  have hadv : b.replica.core.Advances P (fun _ => True) (b.addBlk P data).replica.core :=
    .addBlk hp.wellFormed data
  have h₁ : (b.addBlk P data).Deliveries P fs := h.replica _ hadv.stored hadv.delivered
  have hsame {b' : HotStuffBase H Sig} (hc : (b.addBlk P data).Continues P b' fs) :
      b.Continues P b' fs := hc.of_delivers rfl rfl fun _ => rfl
  unfold HotStuffBase.proposeHandler
  dsimp only
  split
  · exact hsame (h₁.throw_continues _)
  split
  · exact h₁.continues rfl
  · exact hsame (h₁.asyncDeliverBlk_continues (hp.addBlk data) _ fun _ =>
      ⟨rfl, (fun _ _ h => by cases h), (fun _ h => by cases h), fun _ h => by cases h⟩)

theorem fetchAll (h : b.Deliveries P fs) (hp : b.Pending P) (pms : List Nat) (hs : List H) :
    let r := hs.foldl (fun (b, pms) h => let (b, pm) := b.asyncFetchBlk h; (b, pms ++ [pm])) (b, pms)
    r.1.Deliveries P fs ∧ r.1.frames = b.frames := by
  induction hs generalizing b pms with
  | nil => exact ⟨h, rfl⟩
  | cons x hs ih =>
    obtain ⟨hd, hframes⟩ := ih (h.asyncFetchBlk hp x).1 (hp.asyncFetchBlk x).1 _
    exact ⟨hd, hframes.trans (asyncFetchBlk_frames b x)⟩

theorem reqBlkHandler (h : b.Deliveries P fs) (hp : b.Pending P) (hframes : b.frames = [])
    (src : ReplicaID) (hashes : List H) :
    ∃ gs, (b.reqBlkHandler src hashes).frames = gs ++ b.frames ∧
      (b.reqBlkHandler src hashes).Deliveries P (gs ++ fs) := by
  obtain ⟨hd, hsame⟩ := h.fetchAll hp [] hashes
  obtain ⟨hp₁, _, hgoals⟩ := hp.fetchAll [] [] rfl hashes
  unfold HotStuffBase.reqBlkHandler
  dsimp only
  split
  · refine ⟨[], hframes.symm, ?_⟩
    exact hd.throw _
  · have hgoals : _ = (Then.sendBlocks src hashes : Then H Sig).goals.map some := hgoals
    obtain ⟨gs, hgs, hlast⟩ := hd.await hp₁ hgoals trivial fun _ _ heq => by cases heq
    exact ⟨gs, hsame ▸ hgs, hlast⟩

theorem respBlkHandler (h : b.Deliveries P fs) (hp : b.Pending P) (hidle : b.replica.idle = true)
    (blks : List (BlockData H Sig)) (complete : Bool) :
    b.Continues P (b.respBlkHandler P blks complete) fs := by
  obtain ⟨_, _, hadv, _⟩ := hp.addBlks hidle blks
  have hsame (ds : List (BlockData H Sig)) (b₀ : HotStuffBase H Sig) :
      ds.foldl (HotStuffBase.addBlk P) b₀ =
        { b₀ with replica := (ds.foldl (HotStuffBase.addBlk P) b₀).replica } := by
    induction ds generalizing b₀ with
    | nil => rfl
    | cons d ds ih => exact ih (b₀.addBlk P d)
  have h₁ := h.replica _ hadv.stored hadv.delivered
  unfold HotStuffBase.respBlkHandler
  rw [hsame blks b]
  generalize (blks.foldl (HotStuffBase.addBlk P) b).replica = nd at h₁
  dsimp only
  split
  · refine Or.inr (Or.inl ⟨blks.map fun data => .onFetchBlk (P.hashBlock data), rfl, ?_⟩)
    refine (h₁.push _ (fun k w hw => ?_) (fun f hf q hq => ?_) (fun x hx => ?_) fun x hx => ?_).withFrames _
    · obtain ⟨_, _, heq⟩ := List.mem_map.mp hw
      cases heq
    · obtain ⟨_, _, rfl⟩ := List.mem_map.mp hf
      cases hq
    · obtain ⟨_, _, heq⟩ := List.mem_map.mp hx
      cases heq
    · obtain ⟨_, _, heq⟩ := List.mem_map.mp hx
      cases heq
  · refine Or.inr (Or.inr ⟨?_, rfl, h₁.throw _, fun _ => rfl⟩)
    simp [throws, HotStuffBase.throw]

/-- The workers have found something; a certificate is right. -/
theorem verified (h : b.Deliveries P fs) {pm : Nat} (hv : b.verified P pm = some b')
    (hqc : ∀ qc ks, b.promises[pm]? = some ⟨.certified qc, .pending ks⟩ → qc.poolVerify P = true) :
    ∃ gs, b'.frames = gs ++ b.frames ∧ b'.Deliveries P (gs ++ fs) := by
  have hresolve (w : Bool) (hfair : ∀ a, b.promises.goal pm = some a → Fair a w) :
      ∃ gs, (HotStuffBase.push { b with promises := (b.promises.resolve pm w).1 }
        (calls (b.promises.resolve pm w).2)).frames = gs ++ b.frames ∧
          (HotStuffBase.push { b with promises := (b.promises.resolve pm w).1 }
            (calls (b.promises.resolve pm w).2)).Deliveries P (gs ++ fs) :=
    ⟨_, rfl, (h.resolve pm w hfair).withFrames _⟩
  unfold HotStuffBase.verified at hv
  dsimp only at hv
  split at hv
  · rename_i qc ks hpm
    obtain rfl := Option.some.inj hv
    exact hresolve _ fun _ _ _ _ => hqc qc ks hpm
  · rename_i vote ks hpm
    obtain rfl := Option.some.inj hv
    refine hresolve _ fun a hgoal qc heq => ?_
    rw [goal_of_getElem? hpm, heq] at hgoal
    cases hgoal
  · cases hv

/-- A step of the replica. -/
theorem ofReplica (h : b.Deliveries P fs) (hp : b.Pending P) {e : Event H Sig}
    (hstep : b.ofReplica P e = some b') : b.Continues P b' fs := by
  simp only [HotStuffBase.ofReplica, Option.ite_none_right_eq_some, Option.map_eq_some_iff] at hstep
  obtain ⟨_, nd, he, rfl⟩ := hstep
  have hadv : b.replica.core.Advances P (fun _ => True) nd.core :=
    Replica.handle_advances hp.wellFormed (fun _ _ => trivial) he
  exact h.settle_continues (hp.settle hadv).2

/-- Every step goes on with the deliveries. -/
theorem step (h : b.Deliveries P b.frames) (hp : b.Pending P) {e : Input H Sig}
    (htold : b.deliveryTold P e = true) (hstep : b.step P e = some b')
    (hrun : b'.stopped = false) : b'.Deliveries P b'.frames := by
  simp only [deliveryTold, hstep, Bool.and_eq_true, Option.all_some, Bool.or_eq_true,
    Bool.not_eq_true', List.all_eq_true] at htold
  obtain ⟨hevent, hthrow⟩ := htold
  have hcarry (hthrows : b.throws b' = true) (f : Frame H Sig) (hf : f ∈ b.frames) :
      b.carries f = false := by
    obtain hno | hnone := hthrow
    · rw [hthrows] at hno
      cases hno
    · exact hnone f hf
  have hnext (hc : b.Continues P b' b.frames) : b'.Deliveries P b'.frames :=
    of_continues hc hcarry hrun
  cases e with
  | propose src proposer sHash slice data =>
    simp only [HotStuffBase.step, Option.ite_none_right_eq_some, Option.some.injEq] at hstep
    obtain ⟨_, rfl⟩ := hstep
    exact hnext (h.proposeHandler hp src proposer sHash slice data)
  | vote src vote =>
    simp only [HotStuffBase.step, Option.ite_none_right_eq_some, Option.some.injEq] at hstep
    obtain ⟨_, rfl⟩ := hstep
    refine hnext (h.asyncDeliverBlk_continues hp _ fun pm => ⟨rfl, ?_, ?_, ?_⟩)
    · intro k v heq
      cases heq
    · intro x heq
      cases heq
    · intro x heq
      cases heq
  | reqBlock src hashes =>
    simp only [HotStuffBase.step, Option.ite_none_right_eq_some, Bool.and_eq_true,
      Option.some.injEq] at hstep
    obtain ⟨⟨hidle, _⟩, rfl⟩ := hstep
    exact hnext (Or.inr (Or.inl (h.reqBlkHandler hp (idle_iff.mp hidle).2.1 src hashes)))
  | respBlock src blks complete =>
    simp only [HotStuffBase.step, Option.ite_none_right_eq_some, Bool.and_eq_true,
      Option.some.injEq] at hstep
    obtain ⟨⟨hidle, _⟩, rfl⟩ := hstep
    exact hnext (h.respBlkHandler hp (idle_iff.mp hidle).2.2 blks complete)
  | verified pm =>
    simp only [HotStuffBase.step, Option.ite_none_right_eq_some] at hstep
    refine hnext (Or.inr (Or.inl (h.verified hstep.2 fun qc ks hpm => ?_)))
    dsimp only at hevent
    rw [hpm] at hevent
    exact hevent
  | proceed ord =>
    simp only [HotStuffBase.step, Option.ite_none_right_eq_some, Bool.and_eq_true] at hstep
    obtain ⟨⟨_, hidle⟩, hstep⟩ := hstep
    split at hstep
    · cases hstep
    rename_i f rest hframes
    obtain rfl := Option.some.inj hstep
    have hmem : f ∈ b.frames := by
      rw [hframes]
      exact List.mem_cons_self
    have hsub : rest ⊆ b.frames := by
      rw [hframes]
      exact List.subset_cons_self f rest
    have hp₀ : ({ b with frames := rest } : HotStuffBase H Sig).Pending P :=
      { hp with frames := fun g hg => hp.frames g (hsub hg) }
    have h₀ : ({ b with frames := rest } : HotStuffBase H Sig).Deliveries P (f :: rest) := by
      rw [hframes] at h
      exact h.withFrames rest
    simp only [hframes, List.head?_cons, Option.all_some] at hevent
    refine of_continues (h₀.run hp₀ hidle (hp.frames f hmem) ord (fun blk v heq stored hst => ?_)
      fun pm hpm => ?_) (fun hthrows g hg => ?_) hrun
    · subst heq
      have hst : b.core.storage blk = some stored := hst
      have hverified := verifies_of_turnTold hevent hst
      exact hverified
    · have hpm : b.rejects f = some pm := hpm
      obtain ⟨hparts, hcollected⟩ := not_awaited (awaited_of_turnTold hevent hpm)
      exact ⟨hparts, fun g hg => hcollected g (hsub hg)⟩
    · exact hcarry hthrows g (hsub hg)
  | slice src hash slice =>
    exact hnext (h.ofReplica hp (e := .receiveSlice b.core.id src hash slice) hstep)
  | onPropose ord cmds parents extra =>
    exact hnext (h.ofReplica hp (e := .propose b.core.id ord cmds parents extra) hstep)
  | asyncQcFinish blk => exact hnext (h.ofReplica hp (e := .asyncQcFinish b.core.id blk) hstep)
  | runTask ord toSelf => exact hnext (h.ofReplica hp (e := .runTask b.core.id ord toSelf) hstep)

theorem init (P : Primitives H Sig) (dummy : QuorumCert H Sig) (replicas : List NetAddr)
    (listenAddr : NetAddr) (id : ReplicaID) :
    (HotStuffBase.init P dummy replicas listenAddr id).Deliveries P [] :=
  ⟨nofun, fun _ _ _ ⟨_, _, ha, _⟩ => (by cases ha), nofun, .nil, nofun, nofun, nofun, nofun, nofun,
    nofun, nofun, nofun⟩

omit [DecidableEq H] in
/-- What a delivery waits for when no handler runs. -/
theorem waits (h : b.Deliveries P []) (hp : b.Pending P) : b.DeliveryWaits := by
  have held {pm : Nat} {k : Callback H} (hheld : b.promises.Holds pm k) :
      ∃ a, b.promises.goal pm = some a ∧ b.Waits P k a := by
    obtain ⟨g, ks, hat, hk⟩ := hheld
    exact ⟨g, goal_of_getElem? hat, (hp.sound.pending _ (List.mem_of_getElem? hat) ks rfl).2 k hk⟩
  refine ⟨fun x pm hpm => ?_, fun a ha x data hdone hfalse => ?_⟩
  · obtain ⟨q, hq⟩ | ⟨f, hf, _⟩ | ⟨ctx, idx, hlacks⟩ := h.entries x pm hpm
    · obtain ⟨_, hgoal, rfl, _⟩ := held hq
      exact Or.inl ⟨q, h.fetchKnown x q hgoal hq.isPending, hq⟩
    · cases hf
    · obtain ⟨q, hq⟩ | ⟨w, hw⟩ := h.parts ctx x idx hlacks
      · obtain ⟨a, data, ha, hdone, _⟩ := hlacks
        obtain ⟨g, hgoal, d, hd, hg⟩ := held hq
        rw [doneAt, ha, Option.map_some, hdone] at hd
        obtain rfl := Option.some.inj hd
        have hvalid := (hp.valid a (List.mem_of_getElem? ha)).1
        rw [hdone] at hvalid
        obtain ⟨hst, hhash, hgen⟩ := hvalid
        obtain ⟨stored, hst⟩ := Option.isSome_iff_exists.mp hst
        obtain rfl : stored.toBlockData = data :=
          P.hashBlock_injective ((hp.wellFormed.dag.hashed hst hgen).trans hhash.symm)
        refine Or.inr ⟨stored, ctx, idx, q, hst, by rw [doneAt, ha, Option.map_some, hdone], hq, ?_⟩
        cases idx with
        | zero =>
          obtain rfl := Option.some.inj hg
          exact Or.inr (Or.inl hgoal)
        | succ idx =>
          cases idx with
          | zero =>
            obtain rfl := Option.some.inj hg
            exact Or.inl (h.fetchKnown _ q hgoal hq.isPending)
          | succ i =>
            have hg : (stored.parentHashes.map Awaited.delivered)[i]? = some g := hg
            rw [List.getElem?_map, Option.map_eq_some_iff] at hg
            obtain ⟨p, hi, rfl⟩ := hg
            exact Or.inr (Or.inr
              ⟨p, List.mem_of_getElem? hi, h.deliveryKnown p q hgoal hq.isPending⟩)
      · cases hw
  · obtain hverdict | hverdict := h.verdicts a ha x data hdone
    · rw [hfalse] at hverdict
      cases hverdict
    · rw [hfalse] at hverdict
      cases hverdict

end Deliveries

theorem idle_deliveries {dummy : QuorumCert H Sig} {replicas : List NetAddr}
    {listenAddr : NetAddr} {id : ReplicaID}
    (h : b.Runs P dummy replicas listenAddr id fun b e => b.deliveryTold P e = true)
    (hidle : b.idle = true) : b.Pending P ∧ b.Deliveries P [] := by
  have hinv : b.Pending P ∧ (b.stopped = false → b.Deliveries P b.frames) := by
    apply h.invariant ⟨Pending.init P dummy replicas listenAddr id,
      fun _ => Deliveries.init P dummy replicas listenAddr id⟩
    intro b e b' hinv htold hstep
    refine ⟨(hinv.1.step hstep).1, fun hrun => ?_⟩
    exact (hinv.2 (running hstep)).step hinv.1 htold hstep hrun
  have hdeliveries := hinv.2 (stopped_of_idle hidle)
  rw [(idle_iff.mp hidle).2.1] at hdeliveries
  exact ⟨hinv.1, hdeliveries⟩

/-- Every delivery has something to wait for: so it is between two handlers in every run in which
no certificate of a block fails, no exception leaves a handler that still has to go on with a
delivery, and no promise is rejected that another delivery waits for. -/
theorem delivery_waits {dummy : QuorumCert H Sig} {replicas : List NetAddr} {listenAddr : NetAddr}
    {id : ReplicaID}
    (h : b.Runs P dummy replicas listenAddr id fun b e => b.deliveryTold P e = true)
    (hidle : b.idle = true) : b.DeliveryWaits := by
  obtain ⟨hp, hdeliveries⟩ := idle_deliveries h hidle
  exact hdeliveries.waits hp

end HotStuffBase

namespace Concrete

/-- The second block comes with a certificate of which no signature is right. -/
def forgedBlocks : List (BlockData Nat Signature) :=
  [emptyBlock 0 (cert [] 0) 0,
    emptyBlock 1 { objHash := 1, sigs := [some (0, 9), some (1, 9), none, some (3, 9)] } 0]

/-- A callback of a delivery is attached to a promise. -/
def attached (b : HotStuffBase Nat Signature) : Bool :=
  b.promises.any fun p =>
    match p.state with
    | .pending ks => ks.any fun k => b.carries (.call k true)
    | _ => false

/-- A delivery of the second block has been told that its certificate is wrong. -/
def refused (a : All Nat Signature) : Bool :=
  match a.done with
  | .onDeliverBlk blk _ => decide (blk = 2 ∧ a.values[0]? = some (some false))
  | _ => false

/-- What is seen of the delivery of the second block. -/
def seenDelivery (b : HotStuffBase Nat Signature) : Option Nat × Bool × Bool × Bool :=
  (b.blkDeliveryWaiting 2, attached b, b.alls.any refused, b.idle)

theorem not_outstanding {b : HotStuffBase Nat Signature} (h : attached b = false) (x : Nat) :
    ¬ b.Outstanding x := by
  have hnone {pm : Nat} {k : Callback Nat} (hheld : b.promises.Holds pm k) :
      b.carries (.call k true) = false := by
    obtain ⟨g, ks, hpm, hk⟩ := hheld
    have hp := List.any_eq_false.mp h _ (List.mem_of_getElem? hpm)
    exact Bool.eq_false_iff.mpr (List.any_eq_false.mp (Bool.eq_false_iff.mpr hp) k hk)
  intro hout
  obtain ⟨pm, _, hheld⟩ | ⟨blk, ctx, idx, pm, _, hdone, hheld, _⟩ := hout
  · cases hnone hheld
  · have hdelivers : b.delivers ctx = false := hnone hheld
    rw [HotStuffBase.delivers, hdone] at hdelivers
    cases hdelivers

set_option maxRecDepth 100000 in
theorem delivery_waiting_run :
    (Transition.runBy (HotStuffBase.step (primitives chainBlocks []))
      (fun b e => b.deliveryTold (primitives chainBlocks []) e = true)
      (HotStuffBase.init (primitives chainBlocks []) noCert [10, 11, 12, 13] 10 0)
      (proposed chainBlocks 2 ++ List.replicate 4 (.proceed []))).map seenDelivery =
        some (some 0, true, false, true) := by
  decide +kernel

/-- The second block of the chain is proposed before the first one, and waits for it. -/
theorem delivery_waits_proposed : ∃ b : HotStuffBase Nat Signature,
    b.blkDeliveryWaiting 2 = some 0 ∧ b.DeliveryWaits := by
  obtain ⟨b, hreach, hseen⟩ := Transition.runBy_map_reaches delivery_waiting_run
  obtain ⟨hentry, hrest⟩ := Prod.mk.inj hseen
  have hidle : b.idle = true := (Prod.mk.inj (Prod.mk.inj hrest).2).2
  exact ⟨b, hentry, HotStuffBase.delivery_waits hreach hidle⟩

set_option maxRecDepth 100000 in
/-- The first block is delivered, the second one is proposed, and the workers find that its
certificate is wrong. -/
theorem forged_delivery_run :
    (Transition.runBy (HotStuffBase.step (primitives forgedBlocks [])) (fun _ _ => True)
      (HotStuffBase.init (primitives forgedBlocks []) noCert [10, 11, 12, 13] 10 0)
      (proposed forgedBlocks 1 ++ List.replicate 9 (.proceed []) ++
        List.replicate 3 (.runTask [] false) ++ proposed forgedBlocks 2 ++
        List.replicate 6 (.proceed []) ++ [.verified 7, .proceed []])).map seenDelivery =
          some (some 5, false, true, true) := by
  decide +kernel

/-- The handlers have returned and the certificate of the second block has failed, but the entry is
there, and no callback of a delivery is attached to any promise. -/
theorem delivery_forgotten : ∃ b : HotStuffBase Nat Signature,
    (b.Runs (primitives forgedBlocks []) noCert [10, 11, 12, 13] 10 0 fun _ _ => True) ∧
      b.idle = true ∧ b.blkDeliveryWaiting 2 ≠ none ∧ ¬ b.Outstanding 2 ∧
      (∃ a ∈ b.alls, ∃ data, a.done = .onDeliverBlk 2 data ∧ a.values[0]? = some (some false)) ∧
      ¬ b.DeliveryWaits := by
  obtain ⟨b, hreach, hseen⟩ := Transition.runBy_map_reaches forged_delivery_run
  obtain ⟨hentry, hrest⟩ := Prod.mk.inj hseen
  obtain ⟨hattached, hrest⟩ := Prod.mk.inj hrest
  obtain ⟨hrefused, hidle⟩ := Prod.mk.inj hrest
  have hout := not_outstanding hattached 2
  refine ⟨b, hreach, hidle, ?_, hout, ?_, fun hwaits => hout (hwaits.outstanding 2 5 hentry)⟩
  · rw [hentry]
    exact Option.some_ne_none 5
  · obtain ⟨a, ha, hfalse⟩ := List.any_eq_true.mp hrefused
    unfold refused at hfalse
    split at hfalse
    · rename_i blk data hdone
      obtain ⟨rfl, hvalue⟩ := of_decide_eq_true hfalse
      exact ⟨a, ha, data, hdone, hvalue⟩
    · cases hfalse

end Concrete
end LibHotStuff
