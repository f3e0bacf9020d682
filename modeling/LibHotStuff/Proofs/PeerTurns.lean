import LibHotStuff.Model.PeerNetwork
import LibHotStuff.Proofs.MessageSafety

/-! The events that the replica below takes in one step of its handlers. -/

namespace LibHotStuff

variable {H Sig : Type} [DecidableEq H] {P : Primitives H Sig}

/-- What the callback of an `all` makes of its values. -/
def Then.makes (r : ReplicaID) (ord : List H) (values : List (Option Bool)) :
    Then H Sig → List (Event H Sig)
  | .onDeliverBlk blk _ => if values[0]? = some (some true) then [.deliver r blk] else []
  | .onReceiveProposal prop => [.receiveProposal r prop.proposer ord prop]
  | .onReceiveVote vote => if values[1]? = some (some true) then [.receiveVote r ord vote] else []
  | .sendBlocks _ _ => []

namespace HotStuffBase

variable {b b' : HotStuffBase H Sig} {r : ReplicaID}

/-- The events of the replica that an input makes. -/
def makes (b : HotStuffBase H Sig) (r : ReplicaID) : Input H Sig → List (Event H Sig)
  | .propose src _ _ _ data => [.fetch r src data]
  | .respBlock src blks _ => blks.map (.fetch r src)
  | .slice src hash slice => [.receiveSlice r src hash slice]
  | .proceed ord => b.due.toList.flatMap fun (done, values) => done.makes r ord values
  | .onPropose ord cmds parents extra => [.propose r ord cmds parents extra]
  | .asyncQcFinish blk => [.asyncQcFinish r blk]
  | .runTask ord toSelf => [.runTask r ord toSelf]
  | _ => []

/-- The replica takes the events one after the other. -/
def Takes (P : Primitives H Sig) (es : List (Event H Sig)) (nd nd' : Replica H Sig) : Prop :=
  es.foldlM (Replica.handle P) nd = some nd'

theorem Takes.nil (nd : Replica H Sig) : Takes P [] nd nd := rfl

theorem Takes.single {e : Event H Sig} {nd nd' : Replica H Sig} (h : nd.handle P e = some nd') :
    Takes P [e] nd nd' := by
  rw [Takes, List.foldlM_cons, h]
  rfl

theorem onDeliverBlk_replica {blk : H} (hd : Replica.deliverable P b.replica.core blk = true) :
    (b.onDeliverBlk blk).replica = b.replica.absorb [] [] (b.replica.core.onDeliverBlk blk) := by
  unfold Replica.deliverable at hd
  unfold HotStuffBase.onDeliverBlk
  split
  · rename_i hnone
    have hnone : b.replica.core.storage blk = none := hnone
    simp [hnone] at hd
  rename_i stored hst
  have hst : b.replica.core.storage blk = some stored := hst
  simp only [hst, Bool.and_eq_true] at hd
  have hpar : stored.parentHashes.all b.core.delivered = true := hd.2
  rw [if_pos hpar]
  dsimp only
  split
  · rfl
  split
  · rfl
  split
  · rfl
  · rfl

namespace Pending

theorem fulfil_takes (h : b.Pending P) (hidle : b.replica.idle = true) (ord : List H)
    {values : List (Option Bool)} {done : Then H Sig} (hvalid : done.Valid P b.replica.core)
    (hmet : ∀ (i : Nat) v g, values[i]? = some (some v) → done.goals[i]? = some g →
      g.Met P b.replica.core v)
    (hall : values.all Option.isSome = true) (hlen : values.length = done.goals.length) :
    Takes P (done.makes r ord values) b.replica (b.fulfil P ord values done).replica := by
  cases done with
  | onDeliverBlk blk data =>
    simp only [HotStuffBase.fulfil, Then.makes]
    split
    · rename_i hv
      have hd := h.deliverable hvalid hmet hall hlen hv
      rw [onDeliverBlk_replica hd]
      apply Takes.single
      rw [Replica.handle, hidle, hd]
      rfl
    · exact .nil _
  | onReceiveProposal prop =>
    obtain ⟨_, _, hd⟩ := collected hmet hall hlen (i := 0) rfl
    have hd : b.replica.core.delivered prop.blk = true := hd
    apply Takes.single
    simp only [Replica.handle, hidle, hvalid.1, hvalid.2.1, hvalid.2.2, hd, ne_eq, not_false_eq_true,
      decide_true, Bool.and_self, if_true]
    rfl
  | onReceiveVote vote =>
    simp only [HotStuffBase.fulfil, Then.makes]
    split
    · rename_i hv
      obtain ⟨_, _, hd⟩ := collected hmet hall hlen (i := 0) rfl
      obtain ⟨hsig, hobj⟩ := hmet 1 true _ hv rfl rfl
      have hd : b.replica.core.delivered vote.blkHash = true := hd
      have hvoter : vote.voter < b.replica.core.config.nreplicas := hvalid
      rw [hobj] at hsig
      apply Takes.single
      simp only [Replica.handle, hidle, hvoter, hsig, hobj, hd, decide_true, Bool.and_self, if_true]
      rfl
    · exact .nil _
  | sendBlocks replica hashes => exact .nil _

/-- A turn of the handler is an event of the replica, or none. -/
theorem run_takes (h : b.Pending P) (hidle : b.replica.idle = true) (ord : List H) {f : Frame H Sig}
    (rest : List (Frame H Sig)) (hf : b.FrameOk P f) :
    Takes P (({ b with frames := f :: rest } : HotStuffBase H Sig).makes r (.proceed ord)) b.replica
      (b.run P ord f).replica := by
  cases f with
  | call k v =>
    cases k with
    | fetched blk =>
      change Takes P [] _ _
      rw [HotStuffBase.run, onFetched_replica]
      exact .nil _
    | part ctx idx =>
      simp only [HotStuffBase.run, HotStuffBase.fill, makes, due]
      cases ha : b.alls[ctx]? with
      | none => exact .nil _
      | some a =>
        obtain ⟨hp, hvalid, hlen, hmet⟩ := h.filled ha hf
        simp only [Option.bind_some]
        split
        · rename_i hall
          have hturn := hp.fulfil_takes (r := r) hidle ord hvalid hmet hall hlen
          simpa only [Option.toList_some, List.flatMap_singleton] using hturn
        · exact .nil _
  | deliverParents blk data parents pms =>
    change Takes P [] _ _
    cases parents with
    | nil => exact .nil _
    | cons p ps =>
      rw [HotStuffBase.run, asyncDeliverBlk_replica]
      exact .nil _
  | awaitProposal prop pm => exact .nil _
  | awaitVote vote pm =>
    change Takes P [] _ _
    unfold HotStuffBase.run
    dsimp only
    split
    · exact .nil _
    · exact .nil _
  | onFetchBlk blk =>
    change Takes P [] _ _
    unfold HotStuffBase.run
    dsimp only
    split
    · exact .nil _
    · exact .nil _
  | eraseFetch blk => exact .nil _
  | eraseDelivery blk => exact .nil _

end Pending

theorem addBlks_takes (hidle : b.replica.idle = true) (src : ReplicaID) (ds : List (BlockData H Sig)) :
    Takes P (ds.map (.fetch r src)) b.replica (ds.foldl (HotStuffBase.addBlk P) b).replica := by
  induction ds generalizing b with
  | nil => exact .nil _
  | cons d ds ih =>
    have hrest : Takes P (ds.map (.fetch r src)) (b.addBlk P d).replica _ := ih hidle
    rw [Takes, List.map_cons, List.foldlM_cons, Replica.handle, if_pos hidle]
    exact hrest

/-- A fetch changes neither the replica nor what its handler has to do. -/
theorem asyncFetchBlk_same (b : HotStuffBase H Sig) (blk : H) :
    (b.asyncFetchBlk blk).1.replica = b.replica ∧ (b.asyncFetchBlk blk).1.frames = b.frames ∧
      (b.asyncFetchBlk blk).1.alls = b.alls := by
  refine ⟨Pending.asyncFetchBlk_replica b blk, ?_⟩
  unfold HotStuffBase.asyncFetchBlk
  split
  · exact ⟨rfl, rfl⟩
  split
  · exact ⟨rfl, rfl⟩
  · exact ⟨rfl, rfl⟩

theorem fetchAll_same (hs : List H) (c : HotStuffBase H Sig × List Nat) :
    let r := hs.foldl (fun c h => ((c.1.asyncFetchBlk h).1, c.2 ++ [(c.1.asyncFetchBlk h).2])) c
    r.1.replica = c.1.replica ∧ r.1.frames = c.1.frames ∧ r.1.alls = c.1.alls := by
  induction hs generalizing c with
  | nil => exact ⟨rfl, rfl, rfl⟩
  | cons x hs ih =>
    obtain ⟨hreplica, hframes, halls⟩ := asyncFetchBlk_same c.1 x
    obtain ⟨hreplica', hframes', halls'⟩ :=
      ih ((c.1.asyncFetchBlk x).1, c.2 ++ [(c.1.asyncFetchBlk x).2])
    exact ⟨hreplica'.trans hreplica, hframes'.trans hframes, halls'.trans halls⟩

theorem reqBlkHandler_replica (b : HotStuffBase H Sig) (src : ReplicaID) (hashes : List H) :
    (b.reqBlkHandler src hashes).replica = b.replica := by
  have hsame := fetchAll_same hashes (b, [])
  unfold HotStuffBase.reqBlkHandler
  dsimp only
  split
  · exact hsame.1
  · exact hsame.1

/-- What an input does to the replica. -/
theorem Pending.step_takes (h : b.Pending P) {e : Input H Sig} (hstep : b.step P e = some b') :
    Takes P (b.makes r e) b.replica b'.replica := by
  have hreplica {e : Event H Sig} {e' : Event H Sig}
      (heq : b.replica.handle P e = b.replica.handle P e') (hof : b.ofReplica P e = some b') :
      Takes P [e'] b.replica b'.replica := by
    simp only [HotStuffBase.ofReplica, Option.ite_none_right_eq_some, Option.map_eq_some_iff] at hof
    obtain ⟨_, nd, hnd, rfl⟩ := hof
    exact .single (heq.symm.trans hnd)
  cases e with
  | propose src proposer sHash slice data =>
    simp only [HotStuffBase.step, Option.ite_none_right_eq_some, Bool.and_eq_true,
      Option.some.injEq] at hstep
    obtain ⟨⟨⟨hidle, _⟩, _⟩, rfl⟩ := hstep
    have hfetch := addBlks_takes (r := r) (P := P) (idle_iff.mp hidle).2.2 src [data]
    unfold HotStuffBase.proposeHandler
    dsimp only
    split
    · exact hfetch
    split
    · exact hfetch
    · rw [Pending.asyncDeliverBlk_replica]
      exact hfetch
  | vote src vote =>
    simp only [HotStuffBase.step, Option.ite_none_right_eq_some, Option.some.injEq] at hstep
    obtain ⟨_, rfl⟩ := hstep
    rw [Pending.asyncDeliverBlk_replica]
    exact .nil _
  | reqBlock src hashes =>
    simp only [HotStuffBase.step, Option.ite_none_right_eq_some, Option.some.injEq] at hstep
    obtain ⟨_, rfl⟩ := hstep
    rw [reqBlkHandler_replica]
    exact .nil _
  | respBlock src blks complete =>
    simp only [HotStuffBase.step, Option.ite_none_right_eq_some, Bool.and_eq_true,
      Option.some.injEq] at hstep
    obtain ⟨⟨hidle, _⟩, rfl⟩ := hstep
    have hfetch := addBlks_takes (r := r) (P := P) (idle_iff.mp hidle).2.2 src blks
    unfold HotStuffBase.respBlkHandler
    dsimp only
    split
    · exact hfetch
    · exact hfetch
  | slice src hash slice => exact hreplica (e := .receiveSlice b.core.id src hash slice) rfl hstep
  | verified pm =>
    simp only [HotStuffBase.step, Option.ite_none_right_eq_some, HotStuffBase.verified] at hstep
    obtain ⟨_, hstep⟩ := hstep
    split at hstep
    · obtain rfl := Option.some.inj hstep
      exact .nil _
    · obtain rfl := Option.some.inj hstep
      exact .nil _
    · cases hstep
  | proceed ord =>
    simp only [HotStuffBase.step, Option.ite_none_right_eq_some, Bool.and_eq_true] at hstep
    obtain ⟨⟨_, hidle⟩, hstep⟩ := hstep
    split at hstep
    · cases hstep
    rename_i f rest hframes
    obtain rfl := Option.some.inj hstep
    have hrest : ({ b with frames := rest } : HotStuffBase H Sig).Pending P := by
      refine { h with frames := fun g hg => h.frames g ?_ }
      rw [hframes]
      exact List.mem_cons_of_mem f hg
    have hf : b.FrameOk P f := by
      apply h.frames f
      rw [hframes]
      exact List.mem_cons_self
    have hturn := hrest.run_takes (r := r) hidle ord rest hf
    rw [← hframes] at hturn
    exact hturn
  | onPropose ord cmds parents extra =>
    exact hreplica (e := .propose b.core.id ord cmds parents extra) rfl hstep
  | asyncQcFinish blk => exact hreplica (e := .asyncQcFinish b.core.id blk) rfl hstep
  | runTask ord toSelf => exact hreplica (e := .runTask b.core.id ord toSelf) rfl hstep

end HotStuffBase

end LibHotStuff
