import LibHotStuff.Proofs.Concrete
import LibHotStuff.Proofs.DecidedOrder
import LibHotStuff.Proofs.Paced
import LibHotStuff.Proofs.WaitQc

/-! Replicas with `PaceMakerDummyFixed` execute the commands in the order in which the proposer has
been given them. -/

namespace LibHotStuff

variable {H Sig C : Type} [DecidableEq H]

namespace DummySys

variable [DecidableEq Sig] {P : Primitives H Sig} {D : Deployment} {x x' : DummySys H Sig C}
  {r : ReplicaID}

/-- What a step of replica `r` is, but for `exec_command`. -/
inductive Stepped (P : Primitives H Sig) (D : Deployment) (x : DummySys H Sig C) (r : ReplicaID) :
    DummySys H Sig C → Prop
  | command {a : DummyBase H C} (hidle : x.idle r = true) (h : (x.base r).handleCommand = some a) :
    Stepped P D x r (x.set r a)
  | arrive {e : Event H Sig} {x' : DummySys H Sig C} (hidle : x.idle r = true) (hat : e.at_ = r)
    (hbuilds : x.sys.builds P e = none) (h : x.coreStep P D DummyBase.upper e (x.base r) = some x') :
    Stepped P D x r x'
  | run {pm : PMWaitQC H} (h : (x.base r).pm.runTask = some pm) (blk : H) (waits : Bool) :
    Stepped P D x r (Paced.awaitQc P D (x.set r { x.base r with pm := pm }) r blk waits)
  | propose {k : Nat} {rest : List (WaitTask H)} {ord : List H} {x' : DummySys H Sig C} (blk : H)
    (below : Nat) (htasks : (x.base r).pm.tasks = .propose k :: rest)
    (h : x.coreStep P D DummyBase.upper
      (.propose r ord ((x.base r).beatCmds.getD k []) (x.sys.node r).getParents [])
      { x.base r with pm := { (x.base r).pm with tasks := .proposing blk below :: rest } } = some x') :
    Stepped P D x r x'
  | returns {blk : H} {below : Nat} {rest : List (WaitTask H)} {x' : DummySys H Sig C}
    (htasks : (x.base r).pm.tasks = .proposing blk below :: rest)
    (h : x.coreStep P D DummyBase.upper (.runTask r [] false)
      { x.base r with pm := { (x.base r).pm with tasks := rest } } = some x') :
    Stepped P D x r x'
  | task {t : Task H Sig} {rest : List (Task H Sig)} {ord : List H} {toSelf : Bool}
    {x' : DummySys H Sig C} (htasks : (x.sys.node r).tasks = t :: rest)
    (hrest : (x.base r).resting (rest.length + 1) = true)
    (h : x.coreStep P D DummyBase.upper (.runTask r ord toSelf) ((x.base r).onTask t) = some x') :
    Stepped P D x r x'

theorem step_stepped {e : DummyEvent H Sig C} (h : x.step P D e = some x') :
    (∃ r cmd callback, e = .execCommand r cmd callback ∧
      x' = x.set r ((x.base r).execCommand cmd callback)) ∨ ∃ r, Stepped P D x r x' := by
  cases e with
  | execCommand r cmd callback =>
    obtain rfl := Option.some.inj h
    exact Or.inl ⟨r, cmd, callback, rfl, rfl⟩
  | handleCommand r =>
    simp only [step, Option.ite_none_right_eq_some] at h
    obtain ⟨a, ha, rfl⟩ := Option.map_eq_some_iff.mp h.2
    exact Or.inr ⟨r, .command h.1 ha⟩
  | arrive e =>
    cases e with
    | propose _ _ _ _ _ => cases h
    | asyncQcFinish _ _ => cases h
    | runTask _ _ _ => cases h
    | _ =>
      simp only [step, Option.ite_none_right_eq_some] at h
      exact Or.inr ⟨_, .arrive h.1 rfl rfl h.2⟩
  | runPacemaker r =>
    simp only [step, Option.ite_none_left_eq_some] at h
    obtain ⟨pm, hpm, rfl⟩ := Option.map_eq_some_iff.mp h.2
    refine Or.inr ⟨r, ?_⟩
    split
    · exact .run hpm _ _
    · exact .run hpm pm.lastProposed false
  | propose r ord =>
    simp only [step] at h
    split at h
    · rename_i k rest htasks
      exact Or.inr ⟨r, .propose _ _ htasks h⟩
    · cases h
  | returns r =>
    simp only [step] at h
    split at h
    · rename_i blk below rest htasks
      simp only [Option.ite_none_right_eq_some] at h
      exact Or.inr ⟨r, .returns htasks h.2⟩
    · cases h
  | runTask r ord =>
    simp only [step] at h
    split at h
    · cases h
    · rename_i t rest htasks
      simp only [Option.ite_none_right_eq_some] at h
      exact Or.inr ⟨r, .task htasks h.1 h.2⟩

/-- Such a step is made of steps of the network. -/
theorem Stepped.builds (h : Stepped P D x r x') :
    Paced.Builds P D (fun _ _ => True) x x' := by
  cases h with
  | command _ _ => exact .refl
  | arrive _ _ _ h => exact Paced.coreStep_builds trivial h
  | run _ blk waits => exact Paced.awaitQc_builds (x := x.set r _) r blk waits trivial
  | propose _ _ _ h => exact Paced.coreStep_builds trivial h
  | returns _ h => exact Paced.coreStep_builds trivial h
  | task _ _ h => exact Paced.coreStep_builds trivial h

end DummySys

namespace DummyBase

/-- The commands of a replica are in order: with the proposer, those that have been submitted are
those of its beats, those that wait in its buffer and those that have not been handled; the others
make no beats. -/
structure Ordered (a : DummyBase H C) (r : ReplicaID) (fixed : Option ReplicaID) : Prop where
  id : a.pm.id = r
  fixed : a.pm.fixed = fixed
  orderly : a.pm.Orderly
  beats : a.beatCmds.length = a.pm.beats
  taken : a.pm.proposer = a.pm.id → a.submitted.map Prod.fst =
    a.beatCmds.flatten ++ (a.cmdPendingBuffer ++ a.cmdPending.map Prod.fst)
  others : a.pm.proposer ≠ a.pm.id → a.pm.beats = 0

variable {a a' : DummyBase H C} {r : ReplicaID} {fixed : Option ReplicaID} {m : Nat}

namespace Ordered

omit [DecidableEq H] in
theorem with_pm (h : a.Ordered r fixed) {pm : PMWaitQC H} (hgoes : a.pm.Goes pm)
    (hkept : a.pm.Kept pm) : Ordered { a with pm := pm } r fixed := by
  obtain ⟨hid, hfixed, hbeats⟩ := hkept
  have hself : pm.proposer = pm.id ↔ a.pm.proposer = a.pm.id := by
    rw [PMWaitQC.proposer, PMWaitQC.proposer, hid, hfixed]
  exact ⟨hid.trans h.id, hfixed.trans h.fixed, hgoes.orderly, h.beats.trans hbeats.symm,
    fun hp => h.taken (hself.mp hp), fun hp => hbeats.trans (h.others (mt hself.mpr hp))⟩

omit [DecidableEq H] in
theorem execCommand (h : a.Ordered r fixed) (cmd : UInt256) (callback : C) :
    (a.execCommand cmd callback).Ordered r fixed := by
  refine { h with taken := fun hp => ?_ }
  simp only [DummyBase.execCommand, List.map_append, h.taken hp, List.append_assoc]

end Ordered

omit [DecidableEq H] in
/-- What the next command of `cmd_pending` leads to: it is one more of those that wait, or the
buffer is full and a beat is made for its first commands. -/
theorem handleCommand_cases (h : a.handleCommand = some a') : ∃ cmd callback rest waiting replies,
    a.cmdPending = (cmd, callback) :: rest ∧
    ((a.pm.proposer ≠ a.pm.id ∧ a' = { a with
        cmdPending := rest, decisionWaiting := waiting, replies := replies }) ∨
      (a.pm.proposer = a.pm.id ∧ (a' = { a with
          cmdPending := rest, decisionWaiting := waiting, replies := replies
          cmdPendingBuffer := a.cmdPendingBuffer ++ [cmd] } ∨
        ∃ cmds later, a.cmdPendingBuffer ++ [cmd] = cmds ++ later ∧ a' = { a with
          cmdPending := rest, decisionWaiting := waiting, replies := replies
          cmdPendingBuffer := later, beatCmds := a.beatCmds ++ [cmds], pm := a.pm.beat }))) := by
  unfold handleCommand at h
  split at h
  · cases h
  · rename_i cmd callback rest hpend
    obtain rfl := Option.some.inj h
    have hawait : ∃ waiting replies, DummyBase.await { a with cmdPending := rest } cmd callback =
        { a with cmdPending := rest, decisionWaiting := waiting, replies := replies } := by
      unfold DummyBase.await
      split <;> exact ⟨_, _, rfl⟩
    obtain ⟨waiting, replies, heq⟩ := hawait
    refine ⟨cmd, callback, rest, waiting, replies, hpend, ?_⟩
    rw [heq]
    split
    · rename_i hself
      refine Or.inr ⟨hself, ?_⟩
      unfold DummyBase.buffer
      dsimp only
      split
      · exact Or.inl rfl
      · exact Or.inr ⟨_, _, (List.take_append_drop _ _).symm, rfl⟩
    · rename_i hself
      exact Or.inl ⟨hself, rfl⟩

omit [DecidableEq H] in
theorem Ordered.handleCommand (h : a.Ordered r fixed) (hidle : a.pm.tasks = [])
    (hcmd : a.handleCommand = some a') : a'.Ordered r fixed := by
  obtain ⟨cmd, callback, rest, waiting, replies, hpend, hcases⟩ := handleCommand_cases hcmd
  obtain ⟨hself, rfl⟩ | ⟨hself, rfl | ⟨cmds, later, hcmds, rfl⟩⟩ := hcases
  · exact { h with taken := fun hp => absurd hp hself }
  · refine { h with taken := fun hp => ?_ }
    rw [h.taken hp, hpend]
    simp
  · refine ⟨h.id, h.fixed, (h.orderly.beat hidle).orderly, ?_, fun hp => ?_, fun hp => absurd hself hp⟩
    · simp only [List.length_append, List.length_singleton, h.beats, PMWaitQC.beat]
    · change a.submitted.map Prod.fst = _
      rw [h.taken hself, hpend, List.map_cons, List.flatten_append, List.flatten_singleton,
        List.append_assoc, ← List.append_assoc cmds, ← hcmds]
      simp

omit [DecidableEq H] in
/-- What the core tells changes no order. -/
theorem upper_keeps_ordered :
    Paced.Keeps (DummyBase.upper : Upper H Sig (DummyBase H C)) fun _ a => a.Ordered r fixed where
  observe _ a o h := by
    change (a.observe o).Ordered r fixed
    unfold observe
    split
    · split <;> exact { h with }
    · exact h
  count _ a voted h :=
    h.with_pm (h.orderly.with_fields _ _ _ voted _) ⟨rfl, rfl, rfl⟩
  unwind _ a h := h.with_pm h.orderly.unwind ⟨rfl, rfl, rfl⟩

omit [DecidableEq H] in
/-- Nor does it make a beat propose. -/
theorem upper_keeps_spent (cmds : List (List UInt256)) (submitted : List (UInt256 × C)) :
    Paced.Keeps (DummyBase.upper : Upper H Sig (DummyBase H C)) fun _ a =>
      a.pm.Spent m ∧ a.beatCmds = cmds ∧ a.submitted = submitted where
  observe _ a o h := by
    change (a.observe o).pm.Spent m ∧ (a.observe o).beatCmds = cmds ∧ (a.observe o).submitted = submitted
    unfold observe
    split
    · split <;> exact h
    · exact h
  count _ a voted h := ⟨⟨h.1.le, h.1.alive⟩, h.2⟩
  unwind _ a h := by
    refine ⟨⟨h.1.le, fun halive => h.1.alive ?_⟩, h.2⟩
    obtain hheld | ⟨b, hb⟩ | ⟨b, hb⟩ | ⟨b, hb, _⟩ := halive
    · exact Or.inl hheld
    · cases hb
    · cases hb
    · cases hb

omit [DecidableEq H] in
theorem Ordered.onTask (h : a.Ordered r fixed) {left : Nat} (hrest : a.resting left = true)
    (t : Task H Sig) : (a.onTask t).Ordered r fixed ∧ (∀ m, a.pm.Spent m → (a.onTask t).pm.Spent m) ∧
      (a.onTask t).beatCmds = a.beatCmds := by
  have hcalm : ∀ t ∈ a.pm.tasks, t.urgent = false := by
    unfold resting at hrest
    split at hrest
    · rename_i hnil
      rw [hnil]
      nofun
    · rename_i blk below rest htasks
      intro t ht
      rw [htasks] at ht
      obtain rfl | ht := List.mem_cons.mp ht
      · rfl
      · exact h.orderly.calm_rest htasks t ht
    · cases hrest
  unfold DummyBase.onTask
  split
  · rename_i blk
    have hgoes := h.orderly.onQcFinish hcalm blk
    exact ⟨h.with_pm hgoes (a.pm.onQcFinish_kept blk), fun m => hgoes.spent, rfl⟩
  · rename_i prop
    have hgoes := h.orderly.onPropose_ hcalm prop.blk
    exact ⟨h.with_pm hgoes (a.pm.proposed_kept prop.blk), fun m => hgoes.spent, rfl⟩
  · exact ⟨h, fun _ hm => hm, rfl⟩

omit [DecidableEq H] in
/-- The commands of the first beats stay when another one is made. -/
theorem Ordered.take_beatCmds (h : a.Ordered r fixed) (hm : a.pm.Spent m) (cmds : List UInt256) :
    (a.beatCmds ++ [cmds]).take m = a.beatCmds.take m := by
  apply List.take_append_of_le_length
  rw [h.beats]
  exact hm.le.trans a.pm.nextBeat_le

end DummyBase

namespace DummySys

variable [DecidableEq Sig] {P : Primitives H Sig} {D : Deployment} {dummy : QuorumCert H Sig}
  {x x' : DummySys H Sig C} {p r : ReplicaID} {blkSize : Nat}

/-- The commands of each replica are in order, and the blocks have been built of commands of beats
that have proposed, in their order. -/
structure InOrder (x : DummySys H Sig C) (p : ReplicaID) : Prop where
  ordered : ∀ r, (x.base r).Ordered r (some p)
  proposed : ∃ m, (x.base p).pm.Spent m ∧
    (x.built.reverse.flatMap Prod.snd).Sublist ((x.base p).beatCmds.take m).flatten

omit [DecidableEq H] [DecidableEq Sig] in
/-- Something happens above the core. -/
theorem InOrder.set (h : x.InOrder p) {a : DummyBase H C} (ha : a.Ordered r (some p))
    (hp : r = p → ∀ m, (x.base p).pm.Spent m → a.pm.Spent m ∧
      a.beatCmds.take m = (x.base p).beatCmds.take m) : InOrder (x.set r a) p := by
  constructor
  · intro r'
    by_cases hr : r' = r
    · subst hr
      simpa [Paced.set] using ha
    · simpa [Paced.set, hr] using h.ordered r'
  · obtain ⟨m, hm, hsub⟩ := h.proposed
    by_cases hr : r = p
    · subst hr
      obtain ⟨hm', htake⟩ := hp rfl m hm
      refine ⟨m, by simpa [Paced.set] using hm', ?_⟩
      simpa [Paced.set, htake] using hsub
    · exact ⟨m, by simpa [Paced.set, Ne.symm hr] using hm, by simpa [Paced.set, Ne.symm hr] using hsub⟩

/-- The core of a replica runs. -/
theorem InOrder.coreStep (h : x.InOrder p) {e : Event H Sig} {a : DummyBase H C}
    (hcore : x.coreStep P D DummyBase.upper e a = some x') (hat : e.at_ = r)
    (ha : a.Ordered r (some p))
    (hp : r = p → ∃ m, a.pm.Spent m ∧
      (x'.built.reverse.flatMap Prod.snd).Sublist (a.beatCmds.take m).flatten)
    (hother : r ≠ p → x'.built = x.built) : x'.InOrder p := by
  subst hat
  obtain ⟨_, _, hothers, hkeep⟩ := Paced.coreStep_inv hcore
  constructor
  · intro r'
    by_cases hr : r' = e.at_
    · subst hr
      exact hkeep _ DummyBase.upper_keeps_ordered ha
    · rw [(hothers r' hr).1]
      exact h.ordered r'
  · by_cases hr : e.at_ = p
    · obtain ⟨m, hm, hsub⟩ := hp hr
      obtain ⟨hm', hcmds, _⟩ :=
        hkeep _ (DummyBase.upper_keeps_spent (m := m) a.beatCmds a.submitted) ⟨hm, rfl, rfl⟩
      rw [hr] at hm' hcmds
      exact ⟨m, hm', by rw [hcmds]; exact hsub⟩
    · obtain ⟨m, hm, hsub⟩ := h.proposed
      rw [hother hr, (hothers p (Ne.symm hr)).1]
      exact ⟨m, hm, hsub⟩

theorem InOrder.step (h : x.InOrder p) (hstep : Stepped P D x r x') : x'.InOrder p := by
  have hr := h.ordered r
  have hbuilt {e : Event H Sig} {a : DummyBase H C}
      (hcore : x.coreStep P D DummyBase.upper e a = some x') (hnone : x.sys.builds P e = none) :
      x'.built = x.built := by
    obtain ⟨_, hb, _⟩ := Paced.coreStep_inv hcore
    rw [hb, hnone]
    rfl
  -- the core runs and builds nothing
  have hquiet {e : Event H Sig} {a : DummyBase H C}
      (hcore : x.coreStep P D DummyBase.upper e a = some x') (hat : e.at_ = r)
      (hnone : x.sys.builds P e = none) (ha : a.Ordered r (some p))
      (hpm : ∀ m, (x.base r).pm.Spent m → a.pm.Spent m) (hcmds : a.beatCmds = (x.base r).beatCmds) :
      x'.InOrder p := by
    refine h.coreStep hcore hat ha (fun hrp => ?_) fun _ => hbuilt hcore hnone
    subst hrp
    obtain ⟨m, hm, hsub⟩ := h.proposed
    rw [hbuilt hcore hnone, hcmds]
    exact ⟨m, hpm m hm, hsub⟩
  cases hstep with
  | @command a hidle hcmd =>
    simp only [idle, Bool.and_eq_true, List.isEmpty_iff] at hidle
    refine h.set (hr.handleCommand hidle.2 hcmd) fun hrp m hm => ?_
    subst hrp
    obtain ⟨cmd, callback, rest, waiting, replies, _, hcases⟩ := DummyBase.handleCommand_cases hcmd
    obtain ⟨_, rfl⟩ | ⟨_, rfl | ⟨cmds, later, _, rfl⟩⟩ := hcases
    · exact ⟨hm, rfl⟩
    · exact ⟨hm, rfl⟩
    · exact ⟨(hr.orderly.beat hidle.2).spent hm, hr.take_beatCmds hm cmds⟩
  | arrive _ hat hnone hcore => exact hquiet hcore hat hnone hr (fun _ hm => hm) rfl
  | @run pm hrun blk waits =>
    have hgoes := hr.orderly.runTask hrun
    have hset : InOrder (x.set r { x.base r with pm := pm }) p := by
      refine h.set (hr.with_pm hgoes (PMWaitQC.runTask_kept hrun)) fun hrp m hm => ?_
      subst hrp
      exact ⟨hgoes.spent hm, rfl⟩
    unfold Paced.awaitQc
    split
    · exact ⟨hset.ordered, hset.proposed⟩
    · exact hset
  | @propose k rest ord x' blk below htasks hcore =>
    obtain ⟨hgoes, _, hnext⟩ := hr.orderly.propose htasks blk below
    have hrp : r = p := by
      by_contra hne
      have hzero := hr.others (by
        rw [PMWaitQC.proposer, hr.fixed, hr.id]
        exact Ne.symm hne)
      have hle := (x.base r).pm.nextBeat_le
      omega
    subst hrp
    refine h.coreStep hcore rfl (hr.with_pm hgoes ⟨rfl, rfl, rfl⟩) (fun _ => ?_) fun hne => absurd rfl hne
    obtain ⟨m, hm, hsub⟩ := h.proposed
    obtain ⟨hmk, hspent⟩ := hr.orderly.fire htasks blk below hm
    refine ⟨k + 1, hspent, ?_⟩
    obtain ⟨_, hb, _⟩ := Paced.coreStep_inv hcore
    have hlt : k < (x.base r).beatCmds.length := by
      have hle := (x.base r).pm.nextBeat_le
      rw [hr.beats]
      omega
    have hnew : x'.built.reverse.flatMap Prod.snd =
        x.built.reverse.flatMap Prod.snd ++ (x.base r).beatCmds.getD k [] := by
      rw [hb]
      simp [Sys.builds, Replica.getParents]
    have hget : (x.base r).beatCmds.getD k [] = (x.base r).beatCmds[k] := by simp [hlt]
    rw [hnew, hget, List.take_succ_eq_append_getElem hlt, List.flatten_append, List.flatten_singleton]
    refine List.Sublist.append (hsub.trans ?_) (List.Sublist.refl _)
    exact (List.take_sublist_take_left hmk).flatten
  | returns htasks hcore =>
    have hpop := hr.orderly.pop htasks
    exact hquiet hcore rfl rfl (hr.with_pm hpop ⟨rfl, rfl, rfl⟩) (fun _ hm => hpop.spent hm) rfl
  | @task t rest ord toSelf x' htasks hrest hcore =>
    obtain ⟨ha, hspent, hcmds⟩ := hr.onTask hrest t
    exact hquiet hcore rfl rfl ha hspent hcmds

omit [DecidableEq Sig] in
theorem init_inOrder (P : Primitives H Sig) (D : Deployment) (dummy : QuorumCert H Sig)
    (blkSize : Nat) (p : ReplicaID) :
    InOrder (init (C := C) P D dummy blkSize (some p)) p where
  ordered r :=
    { id := rfl, fixed := rfl, orderly := PMWaitQC.init_orderly r (some p) P.genesisHash
      beats := rfl, taken := fun _ => rfl, others := fun _ => rfl }
  proposed := by
    refine ⟨0, ⟨Nat.zero_le _, ?_⟩, List.Sublist.refl _⟩
    rintro (⟨pm, b, g, ks, hp, _⟩ | ⟨b, hb⟩ | ⟨b, hb⟩ | ⟨b, hb, _⟩)
    · cases hp
    · cases hb
    · cases hb
    · cases hb

theorem Reachable.inOrder (h : x.Reachable P D dummy blkSize (some p)) : x.InOrder p := by
  apply Transition.Reaches.invariant h (init_inOrder P D dummy blkSize p)
  intro x e x' hx _ hstep
  obtain ⟨r, cmd, callback, _, rfl⟩ | ⟨r, hstepped⟩ := step_stepped hstep
  · refine hx.set ((hx.ordered r).execCommand cmd callback) fun hrp m hm => ?_
    subst hrp
    exact ⟨hm, rfl⟩
  · exact hx.step hstepped

theorem Reachable.builds {fixed : Option ReplicaID} (h : x.Reachable P D dummy blkSize fixed) :
    Transition.Reaches (Sys.stepBuilding P D) (fun _ _ => True) (Sys.init P D dummy, [])
      (x.sys, x.built) := by
  induction h with
  | refl => exact .refl
  | tail _ hlast ih =>
    obtain ⟨e, _, hstep⟩ := hlast
    obtain ⟨_, _, _, _, rfl⟩ | ⟨r, hstepped⟩ := step_stepped hstep
    · exact ih
    · exact ih.trans hstepped.builds

/-- Commands are executed in the order of submission: let every replica follow the code with
`PaceMakerDummyFixed`. In every run, whatever is delayed, reordered or lost and whatever exceptions
are thrown, the commands that a replica executes are some of those that `exec_command` has been
called with at the proposer, in the same order and none more often. -/
theorem executes_in_order (hall : D.byzantine = ∅)
    (mds : P.leopard.Mds (RSE.setParams D.n).originalCount (RSE.setParams D.n).recoveryCount)
    (h : x.Reachable P D dummy blkSize (some p)) (hr : r < D.n) :
    ((decideLog (x.sys.node r).log).map (·.cmdHash)).Sublist ((x.base p).submitted.map Prod.fst) := by
  obtain ⟨m, _, hsub⟩ := h.inOrder.proposed
  refine ((Sys.decided_sublist hall mds h.builds hr).trans hsub).trans ?_
  by_cases hself : (x.base p).pm.proposer = (x.base p).pm.id
  · rw [(h.inOrder.ordered p).taken hself]
    exact (List.take_sublist _ _).flatten.trans (List.sublist_append_left _ _)
  · have hnone := (h.inOrder.ordered p).others hself
    have hnil : (x.base p).beatCmds = [] :=
      List.length_eq_zero_iff.mp ((h.inOrder.ordered p).beats.trans hnone)
    rw [hnil, List.take_nil]
    exact List.nil_sublist _

end DummySys

namespace Concrete

/-- The lists of commands of four blocks. -/
def queuedLists : List (List UInt256) := [1, 2, 3, 4].map fun k => [command k]

/-- Four blocks with these commands, each on the one before. -/
def queuedBlocks : List (BlockData Nat Signature) :=
  [(0, cert [] 0), (1, cert [0, 1, 2] 1), (2, cert [0, 1, 2] 2), (3, cert [0, 1, 2] 3)].map
    fun (parent, qc) => { parentHashes := [parent], cmds := [parent + 1], qc := qc, extra := [] }

def queueing : Primitives Nat Signature := primitives queuedBlocks queuedLists

def queuedProposals (lists : List (List UInt256)) (h : Nat) : List (Proposal Nat) :=
  commandProposals 0 h (lists.getD (h - 1) [])

/-- A command is submitted at replica 0, and a beat is made for it; its callback is named by the
number of the command. -/
def submitQueued (k : Nat) : List (DummyEvent Nat Signature Nat) :=
  [.execCommand 0 (command (.ofNat k)) k, .handleCommand 0] ++ List.replicate 2 (.runPacemaker 0)

/-- Replica 0 proposes; the pacemaker takes the next beat if there is one. -/
def proposeQueued {C : Type} (steps : Nat) : List (DummyEvent Nat Signature C) :=
  .propose 0 [] :: List.replicate 3 (.runTask 0 []) ++ List.replicate steps (.runPacemaker 0) ++
    List.replicate 2 (.runTask 0 []) ++ [.returns 0]

/-- Replicas 1 and 2 vote for block `h`, and its certificate lets replica 0 propose. -/
def certifyQueued {C : Type} (lists : List (List UInt256)) (steps h : Nat) :
    List (DummyEvent Nat Signature C) :=
  ([1, 2].flatMap fun r => (adopt queuedBlocks 0 r h).map .arrive ++
    ((queuedProposals lists h)[r]?.toList.map fun prop => .arrive (.receiveProposal r 0 [] prop)) ++
      List.replicate 3 (.runTask r [])) ++
  ([1, 2].map fun r => .arrive (.receiveVote 0 []
    { voter := r, blkHash := h, cert := { objHash := h, sig := (r, h) } })) ++
  [.runTask 0 [], .runPacemaker 0] ++ proposeQueued steps ++ [.runPacemaker 0, .runTask 0 []]

/-- The slices that two replicas have sent arrive at a third. -/
def gatherQueued {C : Type} (lists : List (List UInt256)) (r : ReplicaID)
    (senders : List ReplicaID) (h : Nat) : List (DummyEvent Nat Signature C) :=
  senders.flatMap fun src => (queuedProposals lists h)[src]?.toList.map fun prop =>
    .arrive (.receiveSlice r src prop.sHash prop.slice)

/-- Four commands are submitted at replica 0; the last block commits the first one. -/
def queuedRun : List (DummyEvent Nat Signature Nat) :=
  submitQueued 1 ++ List.replicate 2 (.runPacemaker 0) ++ proposeQueued 2 ++ submitQueued 2 ++
    .runPacemaker 0 :: submitQueued 3 ++ submitQueued 4 ++ certifyQueued queuedLists 3 1 ++
    gatherQueued queuedLists 0 [1, 2] 1 ++ certifyQueued queuedLists 3 2 ++
    certifyQueued queuedLists 2 3

/-- The commands that replica 0 has executed, and those that have been submitted there. -/
def queueSeen (x : DummySys Nat Signature Nat) : List UInt256 × List UInt256 :=
  ((decideLog (x.sys.node 0).log).map (·.cmdHash), (x.base 0).submitted.map Prod.fst)

set_option maxRecDepth 100000 in
theorem queued_run : (Transition.runBy (DummySys.step queueing fourCorrect) (fun _ _ => True)
    (DummySys.init queueing fourCorrect noCert 1 (some 0)) queuedRun).map queueSeen =
      some ([command 1], [1, 2, 3, 4].map command) := by
  decide +kernel

/-- Replica 0 has executed the first of its four commands. -/
theorem executes_in_order_queued : ∃ x : DummySys Nat Signature Nat,
    queueSeen x = ([command 1], [1, 2, 3, 4].map command) ∧
      ((decideLog (x.sys.node 0).log).map (·.cmdHash)).Sublist
        ((x.base 0).submitted.map Prod.fst) := by
  obtain ⟨x, hreach, hseen⟩ := Transition.runBy_map_reaches queued_run
  exact ⟨x, hseen, DummySys.executes_in_order rfl (xorLeopard_mds 3) hreach (by decide)⟩

end Concrete
end LibHotStuff
