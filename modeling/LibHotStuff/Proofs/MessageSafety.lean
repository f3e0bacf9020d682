import LibHotStuff.Proofs.ReplicaRuns
import LibHotStuff.Proofs.WireRoundTrip

namespace LibHotStuff

open Promises

variable {PubKey H Sig : Type} [DecidableEq H] {P : Primitives H Sig} {n : Nat}

/-- The callback of an `all` meets no assertion: a block that it delivers has a parent, and the
slice of a proposal has the hash that the proposal names, a proof that is right and a place, and no
block is decoded that cannot be. -/
def Then.sane (P : Primitives H Sig) (c : Core H Sig) (values : List (Option Bool)) :
    Then H Sig → Bool
  | .onDeliverBlk blk _ => !decide (values[0]? = some (some true)) || c.hasParent blk
  | .onReceiveProposal prop =>
    decide (prop.sHash = P.hashSlice prop.slice) && prop.slice.validate P.sha256Hex &&
      c.placed P prop.slice && (c.onReceiveSlice P prop.slice).core.decodes P prop.blk
  | _ => true

namespace HotStuffBase

/-- The callback of an `all` that the next turn of the handler calls, and its values. -/
def due (b : HotStuffBase H Sig) : Option (Then H Sig × List (Option Bool)) :=
  match b.frames with
  | .call (.part ctx idx) v :: _ => (b.alls[ctx]?).bind fun a =>
    let values := a.values.set idx (some v)
    if values.all Option.isSome then some (a.done, values) else none
  | _ => none

/-- What happens to a replica meets no assertion and no vector that is too short. -/
def inputSane (P : Primitives H Sig) (b : HotStuffBase H Sig) : Input H Sig → Bool
  | .slice _ hash slice => decide (hash ≠ P.hashSlice slice) || b.core.placed P slice
  | .proceed _ => b.due.all fun (done, values) => done.sane P b.core values
  | .onPropose _ cmds parents extra =>
    (b.core.beforeOwnUpdate P cmds parents extra).decodes P
      (P.hashBlock (b.core.proposedData P cmds parents extra))
  | _ => true

/-- So do the bytes that arrive. -/
def sane (P : Primitives H Sig) (F : Formats PubKey Sig) (name : UInt256 → H) (b : HotStuffBase H Sig) :
    Arrival H Sig → Bool
  | .message src op bytes => op.evenBranch bytes &&
    match op.parse F name src bytes with
    | .ok (e, _) => b.inputSane P e
    | .error _ => true
  | .turn e => b.inputSane P e

/-- No assertion has failed, and none waits to fail. -/
structure Unbroken (n : Nat) (b : HotStuffBase H Sig) : Prop where
  sturdy : b.core.Sturdy n
  halted : b.halted = false
  replica : b.replica.halted = false

variable {b b' : HotStuffBase H Sig}

omit [DecidableEq H] in
theorem Unbroken.same (h : b.Unbroken n) (hreplica : b'.replica = b.replica)
    (hhalted : b'.halted = b.halted) : b'.Unbroken n := by
  refine ⟨?_, hhalted.trans h.halted, ?_⟩
  · rw [core, hreplica]
    exact h.sturdy
  · rw [hreplica]
    exact h.replica

theorem asyncFetchBlk_halted (b : HotStuffBase H Sig) (blk : H) :
    (b.asyncFetchBlk blk).1.halted = b.halted := by
  unfold asyncFetchBlk
  split
  · rfl
  split
  · rfl
  · rfl

theorem asyncDeliverBlk_halted (b : HotStuffBase H Sig) (blk : H) (next : Nat → Frame H Sig) :
    (b.asyncDeliverBlk blk next).halted = b.halted := by
  unfold asyncDeliverBlk
  split
  · rfl
  split
  · rfl
  · exact asyncFetchBlk_halted _ blk

theorem onFetched_halted {blk : H} (hst : (b.core.storage blk).isSome) :
    (b.onFetched blk).halted = b.halted := by
  obtain ⟨stored, hst⟩ := Option.isSome_iff_exists.mp hst
  unfold onFetched
  simp only [hst]
  split
  · rfl
  · exact asyncFetchBlk_halted _ _

namespace Unbroken

theorem asyncDeliverBlk (h : b.Unbroken n) (blk : H) (next : Nat → Frame H Sig) :
    (b.asyncDeliverBlk blk next).Unbroken n :=
  h.same (Pending.asyncDeliverBlk_replica b blk next) (asyncDeliverBlk_halted b blk next)

/-- The replica takes over what a call has left. -/
theorem absorb (h : b.Unbroken n) {res : Res H Sig} (hsturdy : res.core.Sturdy n) (hcalm : res.Calm)
    (ord : List H) (rest : List (Task H Sig)) :
    (b.settle (b.replica.absorb ord rest res)).Unbroken n := by
  refine ⟨?_, h.halted, ?_⟩
  · change (b.replica.absorb ord rest res).core.Sturdy n
    rw [Replica.absorb_core]
    exact hsturdy
  · change (b.replica.absorb ord rest res).halted = false
    rw [Replica.absorb_halted hcalm]
    exact h.replica

theorem onDeliverBlk (h : b.Unbroken n) (hc : b.core.WellFormed P) {blk : H}
    (hd : Replica.deliverable P b.core blk = true) (hparent : b.core.hasParent blk = true) :
    (b.onDeliverBlk blk).Unbroken n := by
  obtain ⟨hsturdy, hcalm⟩ := Core.onDeliverBlk_sturdy hc h.sturdy hd
  have hsettled := h.absorb hsturdy (hcalm hparent) [] []
  unfold Replica.deliverable at hd
  unfold HotStuffBase.onDeliverBlk
  split
  · rename_i hnone
    simp [hnone] at hd
  rename_i stored hst
  simp only [hst, Bool.and_eq_true] at hd
  rw [if_pos hd.2]
  dsimp only
  split
  · exact hsettled
  split
  · exact hsettled
  split
  · exact hsettled.same rfl rfl
  · exact hsettled.same rfl rfl

/-- The callback of an `all` is called. -/
theorem fulfil (h : b.Unbroken n) (hp : b.Pending P) (ord : List H) {values : List (Option Bool)}
    {done : Then H Sig} (hvalid : done.Valid P b.replica.core)
    (hmet : ∀ (i : Nat) v g, values[i]? = some (some v) → done.goals[i]? = some g →
      g.Met P b.replica.core v)
    (hall : values.all Option.isSome = true) (hlen : values.length = done.goals.length)
    (hsane : done.sane P b.core values = true) : (b.fulfil P ord values done).Unbroken n := by
  cases done with
  | onDeliverBlk blk data =>
    unfold HotStuffBase.fulfil
    dsimp only
    split
    · rename_i hv
      simp only [Then.sane, hv, decide_true, Bool.not_true, Bool.false_or] at hsane
      exact h.onDeliverBlk hp.wellFormed (hp.deliverable hvalid hmet hall hlen hv) hsane
    · exact h
  | onReceiveProposal prop =>
    simp only [Then.sane, Bool.and_eq_true, decide_eq_true_eq] at hsane
    obtain ⟨⟨⟨hhash, hproof⟩, hplaced⟩, hdecodes⟩ := hsane
    obtain ⟨hsturdy, hcalm⟩ :=
      Core.onReceiveProposal_sturdy hp.wellFormed h.sturdy fun _ => hdecodes
    exact h.absorb hsturdy (hcalm hhash hproof hplaced) ord []
  | onReceiveVote vote =>
    unfold HotStuffBase.fulfil
    dsimp only
    split
    · obtain ⟨hsturdy, hcalm⟩ := Core.onReceiveVote_sturdy hp.wellFormed h.sturdy vote
      exact h.absorb hsturdy hcalm ord []
    · exact h
  | sendBlocks replica hashes => exact h

theorem fill (h : b.Unbroken n) (hp : b.Pending P) (ord : List H) {ctx idx : Nat} {v : Bool}
    (hcall : b.CallOk P (.part ctx idx, v))
    (hsane : ∀ a, b.alls[ctx]? = some a → (a.values.set idx (some v)).all Option.isSome = true →
      a.done.sane P b.core (a.values.set idx (some v)) = true) :
    (b.fill P ord ctx idx v).Unbroken n := by
  unfold HotStuffBase.fill
  split
  · exact h
  rename_i a ha
  obtain ⟨hp', hvalid, hlen, hmet⟩ := hp.filled ha hcall
  have h' : ({ b with alls := b.alls.set ctx { a with values := a.values.set idx (some v) } } :
      HotStuffBase H Sig).Unbroken n := h.same rfl rfl
  dsimp only
  split
  · rename_i hall
    exact h'.fulfil hp' ord hvalid hmet hall hlen (hsane a ha hall)
  · exact h'

/-- The handler goes on. -/
theorem run (h : b.Unbroken n) (hp : b.Pending P) (ord : List H) {f : Frame H Sig}
    (hf : b.FrameOk P f)
    (hsane : ∀ ctx idx v a, f = .call (.part ctx idx) v → b.alls[ctx]? = some a →
      (a.values.set idx (some v)).all Option.isSome = true →
        a.done.sane P b.core (a.values.set idx (some v)) = true) :
    (b.run P ord f).Unbroken n := by
  cases f with
  | call k v =>
    cases k with
    | fetched blk =>
      obtain ⟨a, ⟨ha, _⟩, hmet⟩ := hf
      rw [ha] at hmet
      exact h.same (Pending.onFetched_replica b blk) (onFetched_halted hmet)
    | part ctx idx => exact h.fill hp ord hf fun a => hsane ctx idx v a rfl
  | deliverParents blk data parents pms =>
    cases parents with
    | nil => exact h.same rfl rfl
    | cons p ps => exact h.asyncDeliverBlk p _
  | awaitProposal prop pm => exact h.same rfl rfl
  | awaitVote vote pm =>
    unfold HotStuffBase.run
    dsimp only
    split
    · exact h.same rfl rfl
    · exact h.same rfl rfl
  | onFetchBlk blk =>
    unfold HotStuffBase.run
    dsimp only
    split
    · exact h
    · exact h.same rfl rfl
  | eraseFetch blk => exact h.same rfl rfl
  | eraseDelivery blk => exact h.same rfl rfl

/-- A block from a message enters the storage. -/
theorem addBlk (h : b.Unbroken n) (hc : b.core.WellFormed P) (data : BlockData H Sig) :
    (b.addBlk P data).Unbroken n := by
  have hquiet := (Core.addBlk_grows hc data).1.quiet
  exact ⟨h.sturdy.of_eq hquiet.futures hquiet.sc, h.halted, h.replica⟩

theorem proposeHandler (h : b.Unbroken n) (hc : b.core.WellFormed P) (src proposer : ReplicaID)
    (sHash : H) (slice : Slice H) (data : BlockData H Sig) :
    (b.proposeHandler P src proposer sHash slice data).Unbroken n := by
  have hadd := h.addBlk hc data
  unfold HotStuffBase.proposeHandler
  dsimp only
  split
  · exact hadd.same rfl rfl
  split
  · exact hadd
  · exact hadd.asyncDeliverBlk _ _

theorem reqBlkHandler (h : b.Unbroken n) (src : ReplicaID) (hashes : List H) :
    (b.reqBlkHandler src hashes).Unbroken n := by
  have hall (hs : List H) (b' : HotStuffBase H Sig) (pms : List Nat) (h : b'.Unbroken n) :
      (hs.foldl (fun c h => ((c.1.asyncFetchBlk h).1, c.2 ++ [(c.1.asyncFetchBlk h).2]))
        (b', pms)).1.Unbroken n := by
    induction hs generalizing b' pms with
    | nil => exact h
    | cons x hs ih =>
      exact ih _ _ (h.same (Pending.asyncFetchBlk_replica b' x) (asyncFetchBlk_halted b' x))
  have hfetched := hall hashes b [] h
  unfold HotStuffBase.reqBlkHandler
  dsimp only
  split
  · exact hfetched.same rfl rfl
  · exact hfetched.same rfl rfl

theorem respBlkHandler (h : b.Unbroken n) (hp : b.Pending P) (blks : List (BlockData H Sig))
    (complete : Bool) : (b.respBlkHandler P blks complete).Unbroken n := by
  have hall (ds : List (BlockData H Sig)) (b' : HotStuffBase H Sig) (hp : b'.Pending P)
      (h : b'.Unbroken n) : (ds.foldl (HotStuffBase.addBlk P) b').Unbroken n := by
    induction ds generalizing b' with
    | nil => exact h
    | cons d ds ih => exact ih _ (hp.addBlk d) (h.addBlk hp.wellFormed d)
  have hadded := hall blks b hp h
  unfold HotStuffBase.respBlkHandler
  dsimp only
  split
  · exact hadded.same rfl rfl
  · exact hadded.same rfl rfl

theorem verified (h : b.Unbroken n) {pm : Nat} (hv : b.verified P pm = some b') : b'.Unbroken n := by
  unfold HotStuffBase.verified at hv
  dsimp only at hv
  split at hv
  · rw [← Option.some.inj hv]
    exact h.same rfl rfl
  · rw [← Option.some.inj hv]
    exact h.same rfl rfl
  · cases hv

end Unbroken

omit [DecidableEq H] in
theorem Unbroken.settle (h : b.Unbroken n) {nd : Replica H Sig} (hsturdy : nd.core.Sturdy n)
    (hhalted : nd.halted = b.replica.halted) : (b.settle nd).Unbroken n :=
  ⟨hsturdy, h.halted, hhalted.trans h.replica⟩

end HotStuffBase

namespace HotStuffBase

variable {b b' : HotStuffBase H Sig}

/-- A replica that has halted takes no step. -/
theorem step_running {e : Input H Sig} (hstep : b.step P e = some b') :
    b.halted = false ∧ b.replica.halted = false := by
  have hidle (hi : b.idle = true) : b.halted = false ∧ b.replica.halted = false := by
    obtain ⟨hh, _, hr⟩ := idle_iff.mp hi
    exact ⟨hh, (Replica.idle_iff.mp hr).1⟩
  have hreplica {e : Event H Sig} (he : b.ofReplica P e = some b') :
      b.halted = false ∧ b.replica.halted = false := by
    simp only [ofReplica, Option.ite_none_right_eq_some, Bool.and_eq_true, Bool.not_eq_true',
      Option.map_eq_some_iff] at he
    obtain ⟨⟨hh, _⟩, nd, hnd, _⟩ := he
    exact ⟨hh, Replica.handle_running hnd⟩
  cases e with
  | propose src proposer sHash slice data =>
    simp only [step, Option.ite_none_right_eq_some, Bool.and_eq_true] at hstep
    exact hidle hstep.1.1.1
  | vote src vote =>
    simp only [step, Option.ite_none_right_eq_some, Bool.and_eq_true] at hstep
    exact hidle hstep.1.1
  | reqBlock src hashes =>
    simp only [step, Option.ite_none_right_eq_some, Bool.and_eq_true] at hstep
    exact hidle hstep.1.1
  | respBlock src blks complete =>
    simp only [step, Option.ite_none_right_eq_some, Bool.and_eq_true] at hstep
    exact hidle hstep.1.1
  | slice src hash slice => exact hreplica hstep
  | verified pm =>
    simp only [step, Option.ite_none_right_eq_some] at hstep
    exact hidle hstep.1
  | proceed ord =>
    simp only [step, Option.ite_none_right_eq_some, Bool.and_eq_true, Bool.not_eq_true'] at hstep
    exact ⟨hstep.1.1, (Replica.idle_iff.mp hstep.1.2).1⟩
  | onPropose ord cmds parents extra => exact hreplica hstep
  | asyncQcFinish blk => exact hreplica hstep
  | runTask ord toSelf => exact hreplica hstep

/-- A call of `on_propose` by the replica's own application or pacemaker. -/
def ownProposal : Arrival H Sig → Bool
  | .turn (.onPropose _ _ _ _) => true
  | _ => false

namespace Unbroken

/-- A sane step keeps what the next ones rely on, and fails no assertion unless it is a proposal of
the replica's own. -/
theorem step (h : b.Unbroken n) (hp : b.Pending P) {e : Input H Sig}
    (hsane : b.inputSane P e = true) (hstep : b.step P e = some b') :
    b'.core.Sturdy n ∧ b'.halted = false ∧
      (ownProposal (.turn e) = false → b'.replica.halted = false) := by
  have hall (h' : b'.Unbroken n) : b'.core.Sturdy n ∧ b'.halted = false ∧
      (ownProposal (.turn e) = false → b'.replica.halted = false) :=
    ⟨h'.sturdy, h'.halted, fun _ => h'.replica⟩
  have hc : b.core.WellFormed P := hp.wellFormed
  cases e with
  | propose src proposer sHash slice data =>
    simp only [HotStuffBase.step, Option.ite_none_right_eq_some, Option.some.injEq] at hstep
    obtain ⟨_, rfl⟩ := hstep
    exact hall (h.proposeHandler hc src proposer sHash slice data)
  | vote src vote =>
    simp only [HotStuffBase.step, Option.ite_none_right_eq_some, Option.some.injEq] at hstep
    obtain ⟨_, rfl⟩ := hstep
    exact hall (h.asyncDeliverBlk _ _)
  | reqBlock src hashes =>
    simp only [HotStuffBase.step, Option.ite_none_right_eq_some, Option.some.injEq] at hstep
    obtain ⟨_, rfl⟩ := hstep
    exact hall (h.reqBlkHandler src hashes)
  | respBlock src blks complete =>
    simp only [HotStuffBase.step, Option.ite_none_right_eq_some, Option.some.injEq] at hstep
    obtain ⟨_, rfl⟩ := hstep
    exact hall (h.respBlkHandler hp blks complete)
  | slice src hash slice =>
    simp only [HotStuffBase.step, ofReplica, Option.ite_none_right_eq_some,
      Option.map_eq_some_iff] at hstep
    obtain ⟨_, nd, hnd, rfl⟩ := hstep
    simp only [Replica.handle, Option.ite_none_right_eq_some] at hnd
    obtain ⟨_, hnd⟩ := hnd
    split at hnd
    · rename_i hhash
      obtain rfl := Option.some.inj hnd
      simp only [inputSane, hhash, ne_eq, not_true_eq_false, decide_false, Bool.false_or] at hsane
      exact hall (h.absorb (Core.onReceiveSlice_sturdy h.sturdy slice)
        (Core.onReceiveSlice_calm h.sturdy hsane) [] [])
    · obtain rfl := Option.some.inj hnd
      exact hall (h.settle h.sturdy rfl)
  | verified pm =>
    simp only [HotStuffBase.step, Option.ite_none_right_eq_some] at hstep
    exact hall (h.verified hstep.2)
  | proceed ord =>
    simp only [HotStuffBase.step, Option.ite_none_right_eq_some] at hstep
    obtain ⟨_, hstep⟩ := hstep
    split at hstep
    · cases hstep
    rename_i f rest hframes
    obtain rfl := Option.some.inj hstep
    have h' : ({ b with frames := rest } : HotStuffBase H Sig).Unbroken n := h.same rfl rfl
    have hp' : ({ b with frames := rest } : HotStuffBase H Sig).Pending P := by
      refine { hp with frames := fun g hg => ?_ }
      apply hp.frames g
      rw [hframes]
      exact List.mem_cons_of_mem f hg
    have hf := hp.frames f (by rw [hframes]; exact List.mem_cons_self)
    apply hall
    apply h'.run hp' ord hf
    intro ctx idx v a heq ha hvalues
    have hdue : b.due = some (a.done, a.values.set idx (some v)) := by
      have ha : b.alls[ctx]? = some a := ha
      simp only [due, hframes, heq, ha, Option.bind_some, hvalues, if_true]
    simp only [inputSane, hdue, Option.all_some] at hsane
    exact hsane
  | onPropose ord cmds parents extra =>
    simp only [HotStuffBase.step, ofReplica, Option.ite_none_right_eq_some,
      Option.map_eq_some_iff] at hstep
    obtain ⟨_, nd, hnd, rfl⟩ := hstep
    simp only [Replica.handle, Option.ite_none_right_eq_some, Bool.and_eq_true, Option.some.injEq]
      at hnd
    obtain ⟨⟨_, hpar⟩, rfl⟩ := hnd
    refine ⟨?_, h.halted, fun hown => by cases hown⟩
    change (b.replica.absorb ord _ _).core.Sturdy n
    rw [Replica.absorb_core]
    exact Core.onPropose_sturdy hc h.sturdy hpar hsane
  | asyncQcFinish blk =>
    simp only [HotStuffBase.step, ofReplica, Option.ite_none_right_eq_some,
      Option.map_eq_some_iff] at hstep
    obtain ⟨_, nd, hnd, rfl⟩ := hstep
    simp only [Replica.handle, Option.ite_none_right_eq_some, Option.some.injEq] at hnd
    obtain ⟨_, rfl⟩ := hnd
    exact hall (h.settle h.sturdy rfl)
  | runTask ord toSelf =>
    simp only [HotStuffBase.step, ofReplica, Option.ite_none_right_eq_some,
      Option.map_eq_some_iff] at hstep
    obtain ⟨_, nd, hnd, rfl⟩ := hstep
    simp only [Replica.handle] at hnd
    split at hnd
    · cases hnd
    · obtain ⟨hsturdy, hhalted⟩ := Replica.runTask_sturdy hc h.sturdy hnd
      exact hall (h.settle hsturdy hhalted)

end Unbroken

variable {F : Formats PubKey Sig} {name : UInt256 → H}

/-- The same for the bytes of a peer, which are parsed first. -/
theorem arrive_sane (hF : F.Throws) (hp : b.Pending P) (hsturdy : b.core.Sturdy n) {e : Arrival H Sig}
    (hsane : b.sane P F name e = true) (hstep : b.arrive P F name e = some b') :
    b'.Pending P ∧ b'.core.Sturdy n ∧
      (ownProposal e = false → b'.halted = false ∧ b'.replica.halted = false) := by
  cases e with
  | message src op bytes =>
    simp only [arrive, receive, Option.ite_none_right_eq_some, Bool.and_eq_true] at hstep
    obtain ⟨⟨hidle, _⟩, hstep⟩ := hstep
    obtain ⟨hhalted, _, hreplica⟩ := idle_iff.mp hidle
    have h : b.Unbroken n := ⟨hsturdy, hhalted, (Replica.idle_iff.mp hreplica).1⟩
    simp only [sane, Bool.and_eq_true] at hsane
    obtain ⟨heven, hsane⟩ := hsane
    split at hstep
    · rename_i e rest hparse
      simp only [hparse] at hsane
      obtain ⟨hsturdy', hhalted', hrunning⟩ := h.step hp hsane hstep
      have hmessage : ownProposal (.turn e) = false := by
        have hpeer := Opcode.parse_fromPeer hparse
        cases e with
        | onPropose ord cmds parents extra => exact hpeer.elim
        | _ => rfl
      exact ⟨(hp.step hstep).1, hsturdy', fun _ => ⟨hhalted', hrunning hmessage⟩⟩
    · rename_i err hparse
      obtain rfl := Option.some.inj hstep
      exact ⟨hp.unwind (_ :: b.thrown) b.halted, h.sturdy, fun _ => ⟨h.halted, h.replica⟩⟩
    · rename_i f hne hparse
      obtain ⟨err, herr⟩ := Opcode.parse_error hF hparse heven
      exact absurd herr (hne err)
  | turn e =>
    simp only [arrive, Option.ite_none_right_eq_some] at hstep
    obtain ⟨_, hstep⟩ := hstep
    obtain ⟨hhalted, hreplica⟩ := step_running hstep
    obtain ⟨hsturdy', hhalted', hrunning⟩ := Unbroken.step ⟨hsturdy, hhalted, hreplica⟩ hp hsane hstep
    exact ⟨(hp.step hstep).1, hsturdy', fun hown => ⟨hhalted', hrunning hown⟩⟩

/-- No message breaks a replica: in every run in which what arrives is sane, whatever bytes the
peers send, no message, no verdict of the workers and no turn of a handler fails an assertion or
reads past the end of a vector. -/
theorem no_message_breaks (hF : F.Throws) {dummy : QuorumCert H Sig} {replicas : List NetAddr}
    {listenAddr : NetAddr} {id : ReplicaID}
    (h : b.Receives P F name dummy replicas listenAddr id fun b e => b.sane P F name e = true)
    {e : Arrival H Sig} (hpeer : ownProposal e = false) (hsane : b.sane P F name e = true)
    (hstep : b.arrive P F name e = some b') : b'.halted = false ∧ b'.replica.halted = false := by
  have hinv : b.Pending P ∧ b.core.Sturdy replicas.length := by
    apply Transition.Reaches.invariant h
    · have hs := Core.start_started P id dummy replicas listenAddr
      refine ⟨.init P dummy replicas listenAddr id, ⟨fun x f => ?_, ⟨?_, fun x e he => ?_⟩⟩⟩
      · change ((Core.new P id dummy).start replicas listenAddr).futures x ≠ _
        rw [hs.futures]
        simp
      · change ((Core.new P id dummy).start replicas listenAddr).sc.nodenum = _
        rw [hs.sc]
        rfl
      · change ((Core.new P id dummy).start replicas listenAddr).sc.shards x = _ at he
        rw [hs.sc] at he
        cases he
    · intro b e b' ⟨hp, hsturdy⟩ hsane hstep
      obtain ⟨hp', hsturdy', _⟩ := arrive_sane hF hp hsturdy hsane hstep
      exact ⟨hp', hsturdy'⟩
  exact (arrive_sane hF hinv.1 hinv.2 hsane hstep).2.2 hpeer

end HotStuffBase

namespace Concrete

open DataStream Codec
open Wire.Concrete (hashName)

/-- A signature is its signer and what is signed, in two bytes each. -/
def signatureFormats : Formats Unit Signature where
  putBits := Wire.Concrete.formats.putBits
  getBits := Wire.Concrete.formats.getBits
  putSig s := leBytes 2 s.1 ++ leBytes 2 s.2
  getSig := do
    let rid ← uint (.throw .ioFailure) 2
    let h ← uint (.throw .ioFailure) 2
    return (rid, h)
  emptySig := (0, 0)
  verifySig _ _ _ := true
  digest := UInt256.ofBytes

theorem signatureFormats_throws : signatureFormats.Throws where
  bits := getUInt32_throws.bind fun _ => (getData_throws _).bind fun _ => .pure _
  sig := Fails.bind (.uint ⟨_, rfl⟩ 2) fun _ => Fails.bind (.uint ⟨_, rfl⟩ 2) fun _ => .pure _

/-- A slice on the wire, with any bytes for its branch. -/
def sliceBytes (s : Slice Nat) (branch : Bytes) : Bytes :=
  putArray s.mData ++ (putInt32 s.mIndex ++ (leBytes 32 s.mBlkHash ++
    (putArray s.mRootHash ++ putArray branch)))

/-- A `MsgSlice` whose hash is the one of the slice. -/
def sliceMessage (s : Slice Nat) (branch : Bytes) : Arrival Nat Signature :=
  .message 3 .slice (leBytes 32 ((primitives chainBlocks []).hashSlice s) ++ sliceBytes s branch)

/-- The `MsgPropose` of replica 3 for the first block of the chain. -/
def proposeMessage (sHash : Nat) : Arrival Nat Signature :=
  .message 3 .propose (leBytes 2 3 ++ (leBytes 32 sHash ++ (sliceBytes (anySlice 99) [] ++
    (putUInt32 1 ++ leBytes 32 0 ++ (putUInt32 0 ++ (leBytes 32 0 ++
      (signatureFormats.putBits (List.replicate 4 false) ++ putArray [0])))))))

/-- Replica 0 of four. -/
def freshReplica : HotStuffBase Nat Signature :=
  .init (primitives chainBlocks []) noCert [10, 11, 12, 13] 10 0

/-- The first block is proposed, and the handler runs to its end. -/
def handleProposal (sHash : Nat) : List (Arrival Nat Signature) :=
  proposeMessage sHash :: List.replicate 9 (.turn (.proceed []))

/-- The slice of the proposal has the hash that the message names, and the tasks run too. -/
def soundRun : List (Arrival Nat Signature) :=
  handleProposal ((primitives chainBlocks []).hashSlice (anySlice 99)) ++
    List.replicate 3 (.turn (.runTask [] false))

/-- The run, and a slice that arrives after it. -/
def soundSlice : Option (HotStuffBase Nat Signature) :=
  let sane := HotStuffBase.sane (primitives chainBlocks []) signatureFormats hashName
  (Transition.runBy (HotStuffBase.arrive (primitives chainBlocks []) signatureFormats hashName)
    (fun b e => sane b e = true) freshReplica soundRun).bind fun b =>
      if sane b (sliceMessage (anySlice 1) []) then
        b.arrive (primitives chainBlocks []) signatureFormats hashName (sliceMessage (anySlice 1) [])
      else none

set_option maxRecDepth 100000 in
theorem soundSlice_delivered : soundSlice.map (fun b => b.core.delivered 1) = some true := by
  decide +kernel

/-- Replica 0 takes the proposal of a block and a slice in. -/
theorem no_message_breaks_slice : ∃ b : HotStuffBase Nat Signature,
    soundSlice = some b ∧ b.core.delivered 1 = true ∧ b.halted = false ∧ b.replica.halted = false := by
  obtain ⟨b, hb, hdel⟩ := Option.map_eq_some_iff.mp soundSlice_delivered
  refine ⟨b, hb, hdel, ?_⟩
  unfold soundSlice at hb
  obtain ⟨before, hrun, hlast⟩ := Option.bind_eq_some_iff.mp hb
  have hreach := Transition.runBy_reaches hrun
  split at hlast
  · rename_i hsane
    exact HotStuffBase.no_message_breaks (e := sliceMessage (anySlice 1) []) signatureFormats_throws
      hreach rfl hsane hlast
  · cases hlast

/-- What is seen of a run of replica 0: that an assertion has failed, above or in the core. -/
def seenBroken (es : List (Arrival Nat Signature)) : Option (Bool × Bool) :=
  (Transition.runBy (HotStuffBase.arrive (primitives chainBlocks []) signatureFormats hashName)
    (fun _ _ => True) freshReplica es).map fun b => (b.halted, b.replica.halted)

set_option maxRecDepth 100000 in
/-- Three messages of replica 3 that each break replica 0: a slice whose branch has one byte, a
slice that passes its proof with a place that no replica has, and a proposal that names another
hash than its slice has. -/
theorem message_breaks :
    seenBroken [sliceMessage (anySlice 1) [7]] = some (true, false) ∧
      seenBroken [sliceMessage { anySlice 1 with mIndex := 5 } []] = some (false, true) ∧
      seenBroken (handleProposal 0) = some (false, true) := by
  decide +kernel

end Concrete
end LibHotStuff
