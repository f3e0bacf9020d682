import LibHotStuff.Proofs.DeliveredDag

namespace LibHotStuff

variable {H Sig : Type} [DecidableEq H] {P : Primitives H Sig}

namespace Core

variable {c : Core H Sig}

theorem onReceiveVote_stored (hc : c.WellFormed P) (vote : Vote H Sig) (x : H) :
    ((c.onReceiveVote vote).core.storage x).isSome = (c.storage x).isSome := by
  obtain h | h | ⟨c', hk, h | h | ⟨_, hqc, outs, h, _⟩⟩ := onReceiveVote_cases hc vote
  · rw [h]
    rfl
  · rw [h]
    rfl
  · rw [h]
    exact hk.sameDag.isSome x
  · rw [h]
    exact hk.sameDag.isSome x
  · rw [h]
    exact hk.sameDag.isSome x

/-- `on_propose` stores at most the block that it builds. -/
theorem onPropose_stored (hc : c.WellFormed P) (cmds : List UInt256) {parents : List H}
    (extra : Bytes) (hpar : parents.all c.delivered = true) {x : H}
    (hx : ((c.onPropose P cmds parents extra).core.storage x).isSome) :
    (c.storage x).isSome ∨
      parents ≠ [] ∧ x = P.hashBlock (c.proposedData P cmds parents extra) := by
  generalize hbnew : P.hashBlock (c.proposedData P cmds parents extra) = bnew at *
  unfold onPropose at hx
  split at hx
  · exact Or.inl hx
  rename_i p₀ hp₀
  simp only [hbnew] at hx
  obtain ⟨hno, _⟩ | ⟨c₁, hok, hgrow, hd⟩ := storeProposed_delivers hc hp₀ hbnew rfl
  · rw [hpar] at hno
    cases hno
  rw [hok, Res.bind_none rfl] at hx
  have hsame := (update_sameBlocks (P := P) hd).bind fun c =>
    sendProposal_sameBlocks (P := P) c cmds bnew
  have hx₁ : (c₁.storage x).isSome = true := by
    rw [← hsame.sameDag.isSome]
    exact hx
  apply (hgrow.stored x hx₁).imp_right
  intro heq
  refine ⟨fun hnil => ?_, heq⟩
  rw [hnil] at hp₀
  cases hp₀

theorem stored_of_addBlk {data : BlockData H Sig} {x : H} (hx : x ≠ P.hashBlock data)
    (hst : ((c.addBlk P data.fetched).storage x).isSome) : (c.storage x).isSome := by
  unfold Core.addBlk at hst
  split at hst
  · exact hst
  · change (Function.update c.storage (P.hashBlock data) (some data.fetched) x).isSome = true at hst
    rwa [Function.update_of_ne hx] at hst

end Core

namespace Replica

variable {nd nd' : Replica H Sig}

/-- A replica that has stopped makes no step. -/
theorem running {e : Event H Sig} (h : nd.handle P e = some nd') : nd.halted = false := by
  cases hh : nd.halted with
  | false => rfl
  | true =>
    have hidle : nd.idle = false := by simp [Replica.idle, hh]
    have hat : nd.atPacemaker = false := by simp [Replica.atPacemaker, hh]
    cases e with
    | fetch r src data => simp [Replica.handle, hidle] at h
    | deliver r blk => simp [Replica.handle, hidle] at h
    | receiveProposal r src ord prop => simp [Replica.handle, hidle] at h
    | receiveVote r ord vote => simp [Replica.handle, hidle] at h
    | receiveSlice r src hash slice => simp [Replica.handle, hidle] at h
    | propose r ord cmds parents extra => simp [Replica.handle, hat] at h
    | asyncQcFinish r blk => simp [Replica.handle, hat] at h
    | runTask r ord toSelf => simp [Replica.handle, hh] at h

/-- Only a fetch and a proposal store a block. -/
theorem handle_stored (hc : nd.core.WellFormed P) {e : Event H Sig} (hstep : nd.handle P e = some nd')
    {x : H} (hx : (nd'.core.storage x).isSome) : (nd.core.storage x).isSome ∨
      (∃ r src data, e = .fetch r src data ∧ x = P.hashBlock data) ∨
        ∃ r ord cmds parents extra, e = .propose r ord cmds parents extra ∧ parents ≠ [] ∧
          x = P.hashBlock (nd.core.proposedData P cmds parents extra) := by
  cases e with
  | fetch r src data =>
    simp only [Replica.handle, Option.ite_none_right_eq_some, Option.some.injEq] at hstep
    obtain ⟨_, rfl⟩ := hstep
    by_cases heq : x = P.hashBlock data
    · exact Or.inr (Or.inl ⟨r, src, data, rfl, heq⟩)
    · exact Or.inl (Core.stored_of_addBlk heq hx)
  | deliver r blk =>
    simp only [Replica.handle, Option.ite_none_right_eq_some, Option.some.injEq] at hstep
    obtain ⟨_, rfl⟩ := hstep
    rw [absorb_core, Core.onDeliverBlk_stored] at hx
    exact Or.inl hx
  | receiveProposal r src ord prop =>
    simp only [Replica.handle, Option.ite_none_right_eq_some, Option.some.injEq] at hstep
    obtain ⟨_, rfl⟩ := hstep
    rw [absorb_core, (Core.onReceiveProposal_sameBlocks nd.core prop).sameDag.isSome] at hx
    exact Or.inl hx
  | receiveVote r ord vote =>
    simp only [Replica.handle, Option.ite_none_right_eq_some, Option.some.injEq] at hstep
    obtain ⟨_, rfl⟩ := hstep
    rw [absorb_core, Core.onReceiveVote_stored hc] at hx
    exact Or.inl hx
  | receiveSlice r src hash slice =>
    simp only [Replica.handle, Option.ite_none_right_eq_some] at hstep
    obtain ⟨_, hstep⟩ := hstep
    split at hstep
    · obtain rfl := Option.some.inj hstep
      rw [absorb_core, (Core.onReceiveSlice_sameBlocks nd.core slice).sameDag.isSome] at hx
      exact Or.inl hx
    · obtain rfl := Option.some.inj hstep
      exact Or.inl hx
  | propose r ord cmds parents extra =>
    simp only [Replica.handle, Option.ite_none_right_eq_some, Bool.and_eq_true, Option.some.injEq]
      at hstep
    obtain ⟨⟨_, hpar⟩, rfl⟩ := hstep
    rw [absorb_core] at hx
    apply (Core.onPropose_stored hc cmds extra hpar hx).imp_right
    intro hnew
    exact Or.inr ⟨r, ord, cmds, parents, extra, rfl, hnew.1, hnew.2⟩
  | asyncQcFinish r blk =>
    simp only [Replica.handle, Option.ite_none_right_eq_some, Option.some.injEq] at hstep
    obtain ⟨_, rfl⟩ := hstep
    exact Or.inl hx
  | runTask r ord toSelf =>
    simp only [Replica.handle] at hstep
    split at hstep
    · cases hstep
    left
    cases toSelf with
    | false =>
      rw [runTask_core hstep] at hx
      exact hx
    | true =>
      obtain hrun | ⟨last, vote, rest, htasks, rfl⟩ := Replica.runTask_self hstep
      · rw [runTask_core hrun] at hx
        exact hx
      · rw [absorb_core, Core.onReceiveVote_stored hc] at hx
        exact hx

end Replica

namespace HotStuffBase

variable {b b' : HotStuffBase H Sig}

/-- The block whose arrival is going to be told to those who wait for it. -/
def telling : Frame H Sig → Option H
  | .onFetchBlk blk => some blk
  | .eraseFetch blk => some blk
  | _ => none

/-- An exception leaves the handler. -/
def throws (b b' : HotStuffBase H Sig) : Bool :=
  decide (b'.thrown ≠ b.thrown) || decide (b'.replica.thrown ≠ b.replica.thrown)

/-- A failed assertion or undefined behaviour has stopped the replica. -/
def stopped (b : HotStuffBase H Sig) : Bool := b.halted || b.replica.halted

omit [DecidableEq H] in
theorem stopped_of_idle (h : b.idle = true) : b.stopped = false := by
  obtain ⟨hhalted, _, hreplica⟩ := idle_iff.mp h
  rw [stopped, hhalted, (Replica.idle_iff.mp hreplica).1]
  rfl

theorem ofReplica_running {e : Event H Sig} (h : b.ofReplica P e = some b') : b.stopped = false := by
  simp only [HotStuffBase.ofReplica, Option.ite_none_right_eq_some, Bool.and_eq_true,
    Bool.not_eq_true', Option.map_eq_some_iff] at h
  obtain ⟨⟨hhalted, _⟩, nd, he, _⟩ := h
  rw [stopped, hhalted, Replica.running he]
  rfl

/-- A replica that has been stopped makes no step. -/
theorem running {e : Input H Sig} (h : b.step P e = some b') : b.stopped = false := by
  cases e with
  | propose | vote | reqBlock | respBlock =>
    simp only [HotStuffBase.step, Option.ite_none_right_eq_some, Bool.and_eq_true, and_assoc] at h
    exact stopped_of_idle h.1
  | verified pm =>
    simp only [HotStuffBase.step, Option.ite_none_right_eq_some] at h
    exact stopped_of_idle h.1
  | proceed ord =>
    simp only [HotStuffBase.step, Option.ite_none_right_eq_some, Bool.and_eq_true,
      Bool.not_eq_true'] at h
    rw [stopped, h.1.1, (Replica.idle_iff.mp h.1.2).1]
    rfl
  | slice | onPropose | asyncQcFinish | runTask => exact ofReplica_running h

/-- A block whose fetch is waited for is stored by a complete `MsgRespBlock` only, and no exception
leaves that handler while it has something to tell. -/
def fetchTold (P : Primitives H Sig) (b : HotStuffBase H Sig) (e : Input H Sig) : Bool :=
  (match e with
    | .propose _ _ _ _ data => (b.blkFetchWaiting (P.hashBlock data)).isNone
    | .respBlock _ blks complete =>
      complete || blks.all fun data => (b.blkFetchWaiting (P.hashBlock data)).isNone
    | .onPropose _ cmds parents extra => parents.isEmpty ||
      (b.blkFetchWaiting (P.hashBlock (b.core.proposedData P cmds parents extra))).isNone
    | _ => true) &&
  (b.step P e).all fun b' =>
    !b.throws b' || b.frames.all fun f => ((telling f).bind b.blkFetchWaiting).isNone

/-- No delivery waits for a block that is in storage, unless the handler is about to tell it. -/
def Cleared (b : HotStuffBase H Sig) : Prop :=
  b.stopped = false → ∀ h pm, (b.core.storage h).isSome → b.blkFetchWaiting h = some pm →
    ∃ f ∈ b.frames, telling f = some h

/-- What most steps do: nothing is stored, an entry is made only for a block that is not stored, and
the handler goes on with what it had to do, unless an exception leaves it. -/
structure Requests (b b' : HotStuffBase H Sig) : Prop where
  stored : ∀ h, (b'.core.storage h).isSome = (b.core.storage h).isSome
  waiting : ∀ h pm, b'.blkFetchWaiting h = some pm →
    b.blkFetchWaiting h = some pm ∨ b.core.storage h = none
  frames : b.frames ⊆ b'.frames ∨ b.throws b' = true ∨ b'.stopped = true

namespace Requests

omit [DecidableEq H] in
/-- What is stored and waited for stays the same. -/
theorem of_eq (hstored : ∀ h, (b'.core.storage h).isSome = (b.core.storage h).isSome)
    (hwaiting : b'.blkFetchWaiting = b.blkFetchWaiting)
    (hframes : b.frames ⊆ b'.frames ∨ b.throws b' = true ∨ b'.stopped = true) : b.Requests b' :=
  ⟨hstored, fun h pm hpm => Or.inl (by rwa [hwaiting] at hpm), hframes⟩

omit [DecidableEq H] in
theorem refl (b : HotStuffBase H Sig) : b.Requests b :=
  of_eq (fun _ => rfl) rfl (Or.inl (List.Subset.refl _))

omit [DecidableEq H] in
theorem push (h : b.Requests b') (fs : List (Frame H Sig)) : b.Requests (b'.push fs) :=
  ⟨h.stored, h.waiting, h.frames.imp_left fun hsub => List.Subset.trans hsub (List.subset_append_right fs _)⟩

omit [DecidableEq H] in
theorem throw (b : HotStuffBase H Sig) (e : Error) : b.Requests (b.throw e) := by
  refine of_eq (fun _ => rfl) rfl (Or.inr (Or.inl ?_))
  simp [throws, HotStuffBase.throw]

omit [DecidableEq H] in
theorem halt (b : HotStuffBase H Sig) : b.Requests b.halt :=
  of_eq (fun _ => rfl) rfl (Or.inr (Or.inr rfl))

omit [DecidableEq H] in
theorem newPromise (b : HotStuffBase H Sig) (goal : Awaited H Sig)
    (state : PromiseState (Callback H) Bool) : b.Requests (b.newPromise goal state).1 :=
  of_eq (fun _ => rfl) rfl (Or.inl (List.Subset.refl _))

theorem asyncFetchBlk (h : b.Requests b') (blk : H) : b.Requests (b'.asyncFetchBlk blk).1 := by
  unfold HotStuffBase.asyncFetchBlk
  split
  · exact ⟨h.stored, h.waiting, h.frames⟩
  rename_i hst
  split
  · exact h
  · refine ⟨h.stored, fun x pm hx => ?_, h.frames⟩
    by_cases heq : x = blk
    · subst heq
      right
      rw [← Option.not_isSome_iff_eq_none, ← h.stored]
      exact hst
    · exact h.waiting x pm ((Function.update_of_ne heq _ _).symm.trans hx)

theorem asyncDeliverBlk (b : HotStuffBase H Sig) (blk : H) (next : Nat → Frame H Sig) :
    b.Requests (b.asyncDeliverBlk blk next) := by
  unfold HotStuffBase.asyncDeliverBlk
  split
  · exact (newPromise b (.delivered blk) (.fulfilled true)).push _
  split
  · exact (refl b).push _
  · let b₁ : HotStuffBase H Sig := { (b.newPromise (.delivered blk) (.pending [])).1 with
      blkDeliveryWaiting := Function.update b.blkDeliveryWaiting blk (some b.promises.length) }
    have h₁ : b.Requests b₁ := ⟨fun _ => rfl, fun _ _ => Or.inl, Or.inl (List.Subset.refl _)⟩
    have h₂ := h₁.asyncFetchBlk blk
    have h₃ : b.Requests { (b₁.asyncFetchBlk blk).1 with
        promises := ((b₁.asyncFetchBlk blk).1.promises.subscribe (b₁.asyncFetchBlk blk).2
          (.fetched blk)).1 } := ⟨h₂.stored, h₂.waiting, h₂.frames⟩
    exact h₃.push _

omit [DecidableEq H] in
theorem await (h : b.Requests b') (pms : List Nat) (done : Then H Sig) : b.Requests (b'.await pms done) := by
  have h₁ : b.Requests { b' with
      promises := (b'.promises.subscribeAll (pms.zipIdx.map fun x => (x.1, .part b'.alls.length x.2))).1
      alls := b'.alls ++ [{ done := done, values := pms.map fun _ => none }] } :=
    ⟨h.stored, h.waiting, h.frames⟩
  exact h₁.push _

theorem onFetched (b : HotStuffBase H Sig) (blk : H) : b.Requests (b.onFetched blk) := by
  unfold HotStuffBase.onFetched
  split
  · exact halt b
  dsimp only
  split
  · exact throw b _
  · exact ((newPromise b _ _).asyncFetchBlk _).push _

omit [DecidableEq H] in
theorem settle_frames (nd : Replica H Sig) :
    b.frames ⊆ (b.settle nd).frames ∨ b.throws (b.settle nd) = true ∨
      (b.settle nd).stopped = true := by
  by_cases hthrown : nd.thrown = b.replica.thrown
  · cases hhalted : nd.halted with
    | true =>
      right
      right
      simp [stopped, HotStuffBase.settle, hhalted]
    | false =>
      left
      simp [HotStuffBase.settle, hthrown, hhalted]
  · right
    left
    simp [throws, HotStuffBase.settle, hthrown]

omit [DecidableEq H] in
/-- The replica makes a step in which it stores nothing. -/
theorem settle {nd : Replica H Sig}
    (hstored : ∀ h, (nd.core.storage h).isSome = (b.core.storage h).isSome) :
    b.Requests (b.settle nd) :=
  of_eq hstored rfl (settle_frames nd)

theorem onDeliverBlk (b : HotStuffBase H Sig) (blk : H) : b.Requests (b.onDeliverBlk blk) := by
  have h : b.Requests (b.settle (b.replica.absorb [] [] (b.core.onDeliverBlk blk))) := by
    apply settle
    intro x
    rw [Replica.absorb_core]
    exact Core.onDeliverBlk_stored b.core blk x
  unfold HotStuffBase.onDeliverBlk
  split
  · exact halt b
  split
  · dsimp only
    split
    · exact h
    split
    · exact h
    rename_i pm _
    split
    · exact ⟨h.stored, h.waiting, h.frames⟩
    · have h₁ : b.Requests { b.settle (b.replica.absorb [] [] (b.core.onDeliverBlk blk)) with
          promises := (b.promises.resolve pm true).1 } := ⟨h.stored, h.waiting, h.frames⟩
      exact h₁.push _
  · exact halt b

theorem fulfil (hc : b.core.WellFormed P) (ord : List H) (values : List (Option Bool))
    (done : Then H Sig) : b.Requests (b.fulfil P ord values done) := by
  cases done with
  | onDeliverBlk blk data =>
    unfold HotStuffBase.fulfil
    dsimp only
    split
    · exact onDeliverBlk b blk
    · exact refl b
  | onReceiveProposal prop =>
    apply settle
    intro x
    rw [Replica.absorb_core]
    exact (Core.onReceiveProposal_sameBlocks b.core prop).sameDag.isSome x
  | onReceiveVote vote =>
    unfold HotStuffBase.fulfil
    dsimp only
    split
    · apply settle
      intro x
      rw [Replica.absorb_core]
      exact Core.onReceiveVote_stored hc vote x
    · exact refl b
  | sendBlocks replica hashes => exact refl b

theorem fill (hc : b.core.WellFormed P) (ord : List H) (ctx idx : Nat) (v : Bool) :
    b.Requests (b.fill P ord ctx idx v) := by
  unfold HotStuffBase.fill
  split
  · exact refl b
  rename_i a _
  dsimp only
  split
  · have h := fulfil (b := { b with alls := b.alls.set ctx { a with values := a.values.set idx (some v) } })
      hc ord (a.values.set idx (some v)) a.done
    exact ⟨h.stored, h.waiting, h.frames⟩
  · exact ⟨fun _ => rfl, fun _ _ => Or.inl, Or.inl (List.Subset.refl _)⟩

end Requests

namespace Cleared

omit [DecidableEq H] in
/-- No entry of a stored block is new, and the handler goes on or has nothing to tell. -/
theorem of_entries (hc : b.Cleared) (hrun : b.stopped = false)
    (hentry : ∀ h pm, (b'.core.storage h).isSome → b'.blkFetchWaiting h = some pm →
      (b.core.storage h).isSome ∧ b.blkFetchWaiting h = some pm)
    (hframes : b.frames ⊆ b'.frames ∨ b.throws b' = true ∨ b'.stopped = true)
    (htold : b.throws b' = true → ∀ f ∈ b.frames, (telling f).bind b.blkFetchWaiting = none) :
    b'.Cleared := by
  intro hrun' x pm hst hpm
  obtain ⟨hst, hpm⟩ := hentry x pm hst hpm
  obtain ⟨f, hf, htell⟩ := hc hrun x pm hst hpm
  obtain hsub | hthrow | hstop := hframes
  · exact ⟨f, hsub hf, htell⟩
  · have hgone := htold hthrow f hf
    rw [htell, Option.bind_some, hpm] at hgone
    cases hgone
  · rw [hstop] at hrun'
    cases hrun'

omit [DecidableEq H] in
theorem requests (hc : b.Cleared) (hrun : b.stopped = false) (h : b.Requests b')
    (htold : b.throws b' = true → ∀ f ∈ b.frames, (telling f).bind b.blkFetchWaiting = none) :
    b'.Cleared := by
  refine hc.of_entries hrun (fun x pm hst hpm => ?_) h.frames htold
  rw [h.stored] at hst
  obtain hold | hnone := h.waiting x pm hpm
  · exact ⟨hst, hold⟩
  · rw [hnone] at hst
    cases hst

omit [DecidableEq H] in
/-- A frame with nothing to tell is taken off. -/
theorem pop (hc : b.Cleared) {f : Frame H Sig} {rest : List (Frame H Sig)} (hframes : b.frames = f :: rest)
    (hquiet : (telling f).bind b.blkFetchWaiting = none) :
    ({ b with frames := rest } : HotStuffBase H Sig).Cleared := by
  intro hrun x pm hst hpm
  obtain ⟨g, hg, htell⟩ := hc hrun x pm hst hpm
  rw [hframes] at hg
  obtain rfl | hg := List.mem_cons.mp hg
  · rw [htell, Option.bind_some] at hquiet
    rw [hquiet] at hpm
    cases hpm
  · exact ⟨g, hg, htell⟩

/-- The handler goes on. -/
theorem run (hc : b.Cleared) (hwf : b.core.WellFormed P) (hrun : b.stopped = false) (ord : List H)
    {f : Frame H Sig} {rest : List (Frame H Sig)} (hframes : b.frames = f :: rest)
    (htold : b.throws (HotStuffBase.run P ord { b with frames := rest } f) = true →
      ∀ f ∈ b.frames, (telling f).bind b.blkFetchWaiting = none) :
    (HotStuffBase.run P ord { b with frames := rest } f).Cleared := by
  have hrequests (hquiet : (telling f).bind b.blkFetchWaiting = none)
      (h : ({ b with frames := rest } : HotStuffBase H Sig).Requests
        (HotStuffBase.run P ord { b with frames := rest } f)) :
      (HotStuffBase.run P ord { b with frames := rest } f).Cleared := by
    apply (hc.pop hframes hquiet).requests hrun h
    intro hthrow g hg
    apply htold hthrow g
    rw [hframes]
    exact List.mem_cons_of_mem f hg
  cases f with
  | call k v =>
    apply hrequests rfl
    cases k with
    | fetched blk => exact .onFetched _ blk
    | part ctx idx => exact Requests.fill (b := { b with frames := rest }) hwf ord ctx idx v
  | deliverParents blk data parents pms =>
    apply hrequests rfl
    cases parents with
    | nil => exact (Requests.refl _).await pms _
    | cons p ps => exact .asyncDeliverBlk _ p _
  | awaitProposal prop pm =>
    apply hrequests rfl
    exact (Requests.refl _).await [pm] _
  | awaitVote vote pm =>
    apply hrequests rfl
    unfold HotStuffBase.run
    dsimp only
    split
    · exact (Requests.newPromise _ _ _).await _ _
    · exact .throw _ _
  | onFetchBlk blk =>
    unfold HotStuffBase.run
    dsimp only
    split
    · rename_i hnone
      exact hc.pop hframes hnone
    · -- the entry of the block goes when its callbacks have run
      intro _ x pm' hst hpm'
      obtain ⟨g, hg, htell⟩ := hc hrun x pm' hst hpm'
      rw [hframes] at hg
      obtain rfl | hg := List.mem_cons.mp hg
      · exact ⟨.eraseFetch blk, List.mem_append_left _ (List.mem_append_right _ List.mem_cons_self),
          htell⟩
      · exact ⟨g, List.mem_append_right _ hg, htell⟩
  | eraseFetch blk =>
    intro _ x pm hst hpm
    have hold : b.blkFetchWaiting x = some pm := Pending.of_erase hpm
    obtain ⟨g, hg, htell⟩ := hc hrun x pm hst hold
    rw [hframes] at hg
    obtain rfl | hg := List.mem_cons.mp hg
    · obtain rfl : blk = x := Option.some.inj htell
      have hnone : Function.update b.blkFetchWaiting blk none blk = some pm := hpm
      rw [Function.update_self] at hnone
      cases hnone
    · exact ⟨g, hg, htell⟩
  | eraseDelivery blk => exact hrequests rfl ⟨fun _ => rfl, fun _ _ => Or.inl, Or.inl (List.Subset.refl _)⟩

/-- A step of the replica that stores only what nobody waits for. -/
theorem ofReplica (hc : b.Cleared) {e : Event H Sig} (hstep : b.ofReplica P e = some b')
    (hstored : ∀ nd, b.replica.handle P e = some nd → ∀ h, (nd.core.storage h).isSome →
      (b.core.storage h).isSome ∨ b.blkFetchWaiting h = none)
    (hrun : b.stopped = false)
    (htold : b.throws b' = true → ∀ f ∈ b.frames, (telling f).bind b.blkFetchWaiting = none) :
    b'.Cleared := by
  simp only [HotStuffBase.ofReplica, Option.ite_none_right_eq_some, Option.map_eq_some_iff] at hstep
  obtain ⟨_, nd, he, rfl⟩ := hstep
  refine hc.of_entries hrun (fun x pm hst hpm => ⟨?_, hpm⟩) (Requests.settle_frames nd) htold
  obtain hold | hnone := hstored nd he x hst
  · exact hold
  · have hpm : b.blkFetchWaiting x = some pm := hpm
    rw [hnone] at hpm
    cases hpm

/-- A block enters the storage for which nobody waits. -/
theorem addBlk (hc : b.Cleared) {data : BlockData H Sig}
    (hnone : b.blkFetchWaiting (P.hashBlock data) = none) : (b.addBlk P data).Cleared := by
  intro hrun x pm hst hpm
  apply hc hrun x pm _ hpm
  by_cases heq : x = P.hashBlock data
  · subst heq
    rw [show b.blkFetchWaiting (P.hashBlock data) = some pm from hpm] at hnone
    cases hnone
  · exact Core.stored_of_addBlk heq hst

/-- The blocks of a message enter the storage. -/
theorem addBlks (b : HotStuffBase H Sig) (blks : List (BlockData H Sig)) :
    let b' := blks.foldl (HotStuffBase.addBlk P) b
    b'.blkFetchWaiting = b.blkFetchWaiting ∧ b'.frames = b.frames ∧ b'.stopped = b.stopped ∧
      ∀ x, (b'.core.storage x).isSome → (b.core.storage x).isSome ∨
        ∃ data ∈ blks, x = P.hashBlock data := by
  induction blks generalizing b with
  | nil => exact ⟨rfl, rfl, rfl, fun _ => Or.inl⟩
  | cons d ds ih =>
    obtain ⟨hwaiting, hframes, hstopped, hstored⟩ := ih (b.addBlk P d)
    refine ⟨hwaiting, hframes, hstopped, fun x hx => ?_⟩
    obtain hx | ⟨data, hdata, heq⟩ := hstored x hx
    · by_cases heq : x = P.hashBlock d
      · exact Or.inr ⟨d, List.mem_cons_self, heq⟩
      · exact Or.inl (Core.stored_of_addBlk heq hx)
    · exact Or.inr ⟨data, List.mem_cons_of_mem d hdata, heq⟩

theorem respBlkHandler (hc : b.Cleared) (hrun : b.stopped = false) (hframes : b.frames = [])
    {blks : List (BlockData H Sig)} {complete : Bool}
    (htold : complete = true ∨ ∀ data ∈ blks, b.blkFetchWaiting (P.hashBlock data) = none) :
    (b.respBlkHandler P blks complete).Cleared := by
  obtain ⟨hwaiting, _, _, hstored⟩ := addBlks (P := P) b blks
  have hentry {x : H} {pm : Nat} (hst : ((blks.foldl (HotStuffBase.addBlk P) b).core.storage x).isSome)
      (hpm : (blks.foldl (HotStuffBase.addBlk P) b).blkFetchWaiting x = some pm) :
      ∃ data ∈ blks, x = P.hashBlock data ∧ b.blkFetchWaiting x = some pm := by
    rw [hwaiting] at hpm
    obtain hst | ⟨data, hdata, heq⟩ := hstored x hst
    · obtain ⟨f, hf, _⟩ := hc hrun x pm hst hpm
      rw [hframes] at hf
      cases hf
    · exact ⟨data, hdata, heq, hpm⟩
  unfold HotStuffBase.respBlkHandler
  dsimp only
  split
  · intro _ x pm hst hpm
    obtain ⟨data, hdata, rfl, _⟩ := hentry hst hpm
    exact ⟨.onFetchBlk (P.hashBlock data), List.mem_append_left _ (List.mem_map_of_mem hdata), rfl⟩
  · rename_i hshort
    intro _ x pm hst hpm
    obtain ⟨data, hdata, rfl, hpm⟩ := hentry hst hpm
    rw [(htold.resolve_left hshort) data hdata] at hpm
    cases hpm

theorem reqBlkHandler (hc : b.Cleared) (hrun : b.stopped = false) (hframes : b.frames = [])
    (src : ReplicaID) (hashes : List H) : (b.reqBlkHandler src hashes).Cleared := by
  have hall (hs : List H) (b' : HotStuffBase H Sig) (pms : List Nat) (h : b.Requests b') :
      b.Requests (hs.foldl (fun c h => ((c.1.asyncFetchBlk h).1, c.2 ++ [(c.1.asyncFetchBlk h).2]))
        (b', pms)).1 := by
    induction hs generalizing b' pms with
    | nil => exact h
    | cons x hs ih => exact ih _ _ (h.asyncFetchBlk x)
  have h := hall hashes b [] (.refl b)
  have hnothing (b' : HotStuffBase H Sig) : b.frames ⊆ b'.frames := by
    rw [hframes]
    exact List.nil_subset _
  have htold : ∀ f ∈ b.frames, (telling f).bind b.blkFetchWaiting = none := by
    rw [hframes]
    exact fun f hf => by cases hf
  unfold HotStuffBase.reqBlkHandler
  dsimp only
  split
  · exact hc.requests hrun ⟨h.stored, h.waiting, Or.inl (hnothing _)⟩ fun _ => htold
  · exact hc.requests hrun (h.await _ _) fun _ => htold

theorem proposeHandler (hc : b.Cleared) (hrun : b.stopped = false) (hframes : b.frames = [])
    (src proposer : ReplicaID) (sHash : H) (slice : Slice H) {data : BlockData H Sig}
    (hnone : b.blkFetchWaiting (P.hashBlock data) = none) :
    (b.proposeHandler P src proposer sHash slice data).Cleared := by
  have hc' := hc.addBlk hnone
  have htold : ∀ f ∈ (b.addBlk P data).frames,
      (telling f).bind (b.addBlk P data).blkFetchWaiting = none := by
    intro f hf
    have hf : f ∈ b.frames := hf
    rw [hframes] at hf
    cases hf
  unfold HotStuffBase.proposeHandler
  dsimp only
  split
  · exact hc'.requests hrun (.throw _ _) fun _ => htold
  split
  · exact hc'
  · exact hc'.requests hrun (.asyncDeliverBlk _ _ _) fun _ => htold

/-- Every step tells those who wait that a block has come. -/
theorem step (hc : b.Cleared) (hwf : b.core.WellFormed P) {e : Input H Sig}
    (htold : b.fetchTold P e = true) (hstep : b.step P e = some b') : b'.Cleared := by
  simp only [fetchTold, hstep, Bool.and_eq_true, Option.all_some, Bool.or_eq_true,
    Bool.not_eq_true', List.all_eq_true, Option.isNone_iff_eq_none] at htold
  obtain ⟨hevent, hthrow⟩ := htold
  have hquiet (hthrows : b.throws b' = true) (f : Frame H Sig) (hf : f ∈ b.frames) :
      (telling f).bind b.blkFetchWaiting = none := by
    obtain hno | hnone := hthrow
    · rw [hthrows] at hno
      cases hno
    · exact hnone f hf
  have hrun := running hstep
  have hidle (h : b.idle = true) : b.frames = [] := (idle_iff.mp h).2.1
  have hreplica {e : Event H Sig} (hof : b.ofReplica P e = some b')
      (hstored : ∀ r ord cmds parents extra, e = .propose r ord cmds parents extra → parents = [] ∨
        b.blkFetchWaiting (P.hashBlock (b.core.proposedData P cmds parents extra)) = none)
      (hfetch : ∀ r src data, e ≠ .fetch r src data) : b'.Cleared := by
    apply hc.ofReplica hof _ hrun hquiet
    intro nd he x hx
    obtain hold | ⟨r, src, data, heq, _⟩ | ⟨r, ord, cmds, parents, extra, heq, hne, rfl⟩ :=
      Replica.handle_stored hwf he hx
    · exact Or.inl hold
    · exact absurd heq (hfetch r src data)
    · exact Or.inr ((hstored r ord cmds parents extra heq).resolve_left hne)
  cases e with
  | propose src proposer sHash slice data =>
    simp only [HotStuffBase.step, Option.ite_none_right_eq_some, Bool.and_eq_true,
      Option.some.injEq] at hstep
    obtain ⟨⟨⟨hi, _⟩, _⟩, rfl⟩ := hstep
    exact hc.proposeHandler hrun (hidle hi) src proposer sHash slice (by simpa using hevent)
  | vote src vote =>
    simp only [HotStuffBase.step, Option.ite_none_right_eq_some, Bool.and_eq_true,
      Option.some.injEq] at hstep
    obtain ⟨⟨hi, _⟩, rfl⟩ := hstep
    exact hc.requests hrun (.asyncDeliverBlk b _ _) hquiet
  | reqBlock src hashes =>
    simp only [HotStuffBase.step, Option.ite_none_right_eq_some, Bool.and_eq_true,
      Option.some.injEq] at hstep
    obtain ⟨⟨hi, _⟩, rfl⟩ := hstep
    exact hc.reqBlkHandler hrun (hidle hi) src hashes
  | respBlock src blks complete =>
    simp only [HotStuffBase.step, Option.ite_none_right_eq_some, Bool.and_eq_true,
      Option.some.injEq] at hstep
    obtain ⟨⟨hi, _⟩, rfl⟩ := hstep
    exact hc.respBlkHandler hrun (hidle hi) (by simpa using hevent)
  | slice src hash slice =>
    exact hreplica (e := .receiveSlice b.core.id src hash slice) hstep
      (fun _ _ _ _ _ h => by cases h) fun _ _ _ h => by cases h
  | verified pm =>
    simp only [HotStuffBase.step, Option.ite_none_right_eq_some] at hstep
    obtain ⟨hi, hv⟩ := hstep
    have hresolve (v : Bool) : (HotStuffBase.push { b with promises := (b.promises.resolve pm v).1 }
        (calls (b.promises.resolve pm v).2)).Cleared := by
      have h : b.Requests { b with promises := (b.promises.resolve pm v).1 } :=
        .of_eq (fun _ => rfl) rfl (Or.inl (List.Subset.refl _))
      apply hc.requests hrun (h.push _)
      rw [hidle hi]
      exact fun _ f hf => by cases hf
    unfold HotStuffBase.verified at hv
    dsimp only at hv
    split at hv
    · obtain rfl := Option.some.inj hv
      exact hresolve _
    · obtain rfl := Option.some.inj hv
      exact hresolve _
    · cases hv
  | proceed ord =>
    simp only [HotStuffBase.step, Option.ite_none_right_eq_some] at hstep
    obtain ⟨_, hstep⟩ := hstep
    split at hstep
    · cases hstep
    rename_i f rest hframes
    obtain rfl := Option.some.inj hstep
    exact hc.run hwf hrun ord hframes hquiet
  | onPropose ord cmds parents extra =>
    refine hreplica (e := .propose b.core.id ord cmds parents extra) hstep ?_ fun _ _ _ h => by cases h
    intro r ord' cmds' parents' extra' heq
    injection heq with _ _ hcmds hparents hextra
    subst hcmds hparents hextra
    simpa using hevent
  | asyncQcFinish blk =>
    exact hreplica (e := .asyncQcFinish b.core.id blk) hstep
      (fun _ _ _ _ _ h => by cases h) fun _ _ _ h => by cases h
  | runTask ord toSelf =>
    exact hreplica (e := .runTask b.core.id ord toSelf) hstep
      (fun _ _ _ _ _ h => by cases h) fun _ _ _ h => by cases h

end Cleared

/-- No delivery waits for a block that is held: in every run in which the arrival of a block is told
to those who wait for it, `blk_fetch_waiting` has no entry for a stored block between two
handlers. -/
theorem no_fetch_of_stored {dummy : QuorumCert H Sig} {replicas : List NetAddr}
    {listenAddr : NetAddr} {id : ReplicaID}
    (h : b.Runs P dummy replicas listenAddr id fun b e => b.fetchTold P e = true)
    (hidle : b.idle = true) {x : H} (hx : (b.core.storage x).isSome) : b.blkFetchWaiting x = none := by
  have hinv : b.Pending P ∧ b.Cleared := by
    apply h.invariant ⟨Pending.init P dummy replicas listenAddr id, fun _ _ _ _ hpm => nomatch hpm⟩
    intro b e b' hinv htold hstep
    exact ⟨(hinv.1.step hstep).1, hinv.2.step hinv.1.wellFormed htold hstep⟩
  have hframes := (idle_iff.mp hidle).2.1
  have hrun := stopped_of_idle hidle
  cases hpm : b.blkFetchWaiting x with
  | none => rfl
  | some pm =>
    obtain ⟨f, hf, _⟩ := hinv.2 hrun x pm hx hpm
    rw [hframes] at hf
    cases hf

end HotStuffBase

namespace Concrete

/-- A vote for the first block of the chain arrives before the block. -/
def earlyVote : List (Input Nat Signature) :=
  [.vote 1 { voter := 1, blkHash := 1, cert := { objHash := 1, sig := (1, 1) } }, .proceed []]

/-- What is seen of the first block: that it is stored and delivered, and its entry. -/
def seenFetch (b : HotStuffBase Nat Signature) : Option Bool × Option Nat × Bool :=
  ((b.core.storage 1).map (·.delivered), b.blkFetchWaiting 1, b.idle)

set_option maxRecDepth 100000 in
theorem fetch_run :
    (Transition.runBy (HotStuffBase.step (primitives chainBlocks []))
      (fun b e => b.fetchTold (primitives chainBlocks []) e = true)
      (HotStuffBase.init (primitives chainBlocks []) noCert [10, 11, 12, 13] 10 0)
      (earlyVote ++ .respBlock 3 (chainBlocks.take 1) true :: List.replicate 10 (.proceed []))).map
        seenFetch = some (some true, none, true) := by
  decide +kernel

/-- The block comes with a response, and nobody waits for it any more. -/
theorem no_fetch_of_stored_response : ∃ b : HotStuffBase Nat Signature,
    b.core.delivered 1 = true ∧ b.blkFetchWaiting 1 = none := by
  obtain ⟨b, hreach, hseen⟩ := Transition.runBy_map_reaches fetch_run
  obtain ⟨hblk, hrest⟩ := Prod.mk.inj hseen
  obtain ⟨blk, hb, hd⟩ := Option.map_eq_some_iff.mp hblk
  refine ⟨b, by rw [Core.delivered_of hb, hd], ?_⟩
  exact HotStuffBase.no_fetch_of_stored hreach (Prod.mk.inj hrest).2 (by rw [hb]; rfl)

set_option maxRecDepth 100000 in
/-- The block comes with its proposal. -/
theorem early_run :
    (Transition.runBy (HotStuffBase.step (primitives chainBlocks [])) (fun _ _ => True)
      (HotStuffBase.init (primitives chainBlocks []) noCert [10, 11, 12, 13] 10 0)
      (earlyVote ++ proposed chainBlocks 1 ++ [.proceed []])).map seenFetch =
        some (some false, some 1, true) := by
  decide +kernel

/-- The handler of the proposal has returned, the block is in storage, and its delivery still waits
for a response. -/
theorem fetch_of_stored_proposed : ∃ b : HotStuffBase Nat Signature,
    (b.Runs (primitives chainBlocks []) noCert [10, 11, 12, 13] 10 0 fun _ _ => True) ∧
      b.idle = true ∧ (b.core.storage 1).isSome ∧ b.core.delivered 1 = false ∧
      b.blkFetchWaiting 1 ≠ none := by
  obtain ⟨b, hreach, hseen⟩ := Transition.runBy_map_reaches early_run
  obtain ⟨hblk, hrest⟩ := Prod.mk.inj hseen
  obtain ⟨hwaiting, hidle⟩ := Prod.mk.inj hrest
  obtain ⟨blk, hb, hd⟩ := Option.map_eq_some_iff.mp hblk
  refine ⟨b, hreach, hidle, by rw [hb]; rfl, by rw [Core.delivered_of hb, hd], ?_⟩
  rw [hwaiting]
  exact Option.some_ne_none 1

end Concrete
end LibHotStuff
