import LibHotStuff.Model.PaceMakerRR
import LibHotStuff.Proofs.DecidedOrder
import LibHotStuff.Proofs.Paced

/-! Where the commands come from that replicas with `PaceMakerRR` execute. -/

namespace LibHotStuff

variable {H Sig : Type} [DecidableEq H]

namespace RRBase

/-- The commands that a replica has at hand have been submitted to it. -/
structure Drawn (a : RRBase H) : Prop where
  pending : a.cmdPending ⊆ a.submitted
  waiting : a.decisionWaiting ⊆ a.submitted
  buffer : a.cmdPendingBuffer ⊆ a.submitted
  beats : ∀ cmds ∈ a.beatCmds, cmds ⊆ a.submitted
  calls : ∀ call ∈ a.calls, call.cmds ⊆ a.submitted

/-- Nothing is submitted, and the commands at hand have been. -/
def Draws (a a' : RRBase H) : Prop := a'.Drawn ∧ a'.submitted = a.submitted

variable {a a' : RRBase H}

namespace Drawn

omit [DecidableEq H] in
theorem draws (h : a.Drawn) : a.Draws a := ⟨h, rfl⟩

omit [DecidableEq H] in
theorem with_calls (h : a.Drawn) (pm : PMRoundRobin H) {calls : List (ProposeCall H)}
    (hcalls : ∀ call ∈ calls, call.cmds ⊆ a.submitted) :
    a.Draws { a with pm := pm, calls := calls } :=
  ⟨{ h with calls := hcalls }, rfl⟩

omit [DecidableEq H] in
theorem with_pm (h : a.Drawn) (pm : PMRoundRobin H) : a.Draws { a with pm := pm } :=
  h.with_calls pm h.calls

omit [DecidableEq H] in
/-- The pacemaker calls `on_propose` with some of these commands. -/
theorem call (h : a.Drawn) (pm : PMRoundRobin H) {cmds : List UInt256} (hcmds : cmds ⊆ a.submitted) :
    a.Draws ({ a with pm := pm }.call cmds) := by
  refine h.with_calls pm fun call hcall => ?_
  obtain rfl | hcall := List.mem_cons.mp hcall
  · exact hcmds
  · exact h.calls call hcall

omit [DecidableEq H] in
theorem execCommand (h : a.Drawn) (cmd : UInt256) : (a.execCommand cmd).Drawn := by
  have more {cmds : List UInt256} (hsub : cmds ⊆ a.submitted) : cmds ⊆ cmd :: a.submitted :=
    List.subset_cons_of_subset cmd hsub
  refine ⟨?_, more h.waiting, more h.buffer, fun cmds hcmds => more (h.beats cmds hcmds),
    fun call hcall => more (h.calls call hcall)⟩
  exact List.append_subset.mpr
    ⟨more h.pending, List.cons_subset.mpr ⟨List.mem_cons_self, List.nil_subset _⟩⟩

omit [DecidableEq H] in
/-- The next command of `cmd_pending` waits for its decision, and goes into a beat. -/
theorem handleCommand (h : a.Drawn) (hcmd : a.handleCommand = some a') : a.Draws a' := by
  unfold RRBase.handleCommand at hcmd
  split at hcmd
  · cases hcmd
  rename_i cmd rest hpend
  have hpending := h.pending
  rw [hpend] at hpending
  obtain ⟨hin, hrest⟩ := List.cons_subset.mp hpending
  have hwaiting : (if cmd ∈ a.decisionWaiting then a.decisionWaiting
      else a.decisionWaiting ++ [cmd]) ⊆ a.submitted := by
    split
    · exact h.waiting
    · exact List.append_subset.mpr ⟨h.waiting, List.cons_subset.mpr ⟨hin, List.nil_subset _⟩⟩
  have hbuffer : a.cmdPendingBuffer ++ [cmd] ⊆ a.submitted :=
    List.append_subset.mpr ⟨h.buffer, List.cons_subset.mpr ⟨hin, List.nil_subset _⟩⟩
  dsimp only at hcmd
  split at hcmd
  · obtain rfl := Option.some.inj hcmd
    exact ⟨⟨hrest, hwaiting, h.buffer, h.beats, h.calls⟩, rfl⟩
  split at hcmd
  · obtain rfl := Option.some.inj hcmd
    exact ⟨⟨hrest, hwaiting, hbuffer, h.beats, h.calls⟩, rfl⟩
  · obtain rfl := Option.some.inj hcmd
    refine ⟨⟨hrest, hwaiting, List.Subset.trans (List.drop_subset _ _) hbuffer, fun cmds hcmds => ?_,
      h.calls⟩, rfl⟩
    obtain hcmds | hcmds := List.mem_append.mp hcmds
    · exact h.beats cmds hcmds
    · rw [List.mem_singleton.mp hcmds]
      exact List.Subset.trans (List.take_subset _ _) hbuffer

omit [DecidableEq H] in
/-- A beat proposes the commands that its callback has captured. -/
theorem onBeat (h : a.Drawn) (beat : Nat) : a.Draws (a.onBeat beat) := by
  unfold RRBase.onBeat
  split
  · apply h.call a.pm
    rw [List.getD_eq_getElem?_getD]
    cases hbeat : a.beatCmds[beat]? with
    | none => exact List.nil_subset _
    | some cmds => exact h.beats cmds (List.mem_of_getElem? hbeat)
  · exact h.with_pm _

theorem runPacemaker (h : a.Drawn) (hrun : a.runPacemaker = some a') : a.Draws a' := by
  obtain ⟨pm, _, rfl⟩ := Option.map_eq_some_iff.mp hrun
  have hpm := (h.with_pm pm).1
  dsimp only
  split
  · split
    · exact hpm.onBeat _
    · exact h.with_pm pm
  · split
    · exact hpm.onBeat _
    · exact h.with_pm pm
  · split
    · exact h.with_pm pm
    · exact h.call pm (List.nil_subset _)
  · exact h.with_pm pm

theorem expire (h : a.Drawn) (hexp : a.expire = some a') : a.Draws a' := by
  obtain ⟨pm, _, rfl⟩ := Option.map_eq_some_iff.mp hexp
  split
  · exact h.call pm (List.nil_subset _)
  · exact h.with_pm pm

/-- `stop_rotate` proposes what waits for a decision. -/
theorem asyncCall (h : a.Drawn) {cmds : List UInt256} (hcall : a.asyncCall cmds = some a') :
    a.Draws a' := by
  simp only [RRBase.asyncCall, Option.ite_none_right_eq_some] at hcall
  obtain ⟨hperm, hcall⟩ := hcall
  obtain ⟨pm, _, rfl⟩ := Option.map_eq_some_iff.mp hcall
  have hcmds : cmds ⊆ a.submitted := List.Subset.trans (List.isPerm_iff.mp hperm).subset h.waiting
  split
  · exact h.with_pm pm
  · exact h.call pm hcmds

omit [DecidableEq H] in
theorem onTask (h : a.Drawn) (t : Task H Sig) : a.Draws (a.onTask t) := by
  unfold RRBase.onTask
  split
  · exact h.with_pm _
  · exact h.with_pm _
  · exact h.with_pm _
  · exact h.draws

end Drawn

/-- What the core tells takes commands out only. -/
theorem upper_keeps_drawn (submitted : List UInt256) :
    Paced.Keeps (RRBase.upper : Upper H Sig (RRBase H)) fun _ a =>
      a.Drawn ∧ a.submitted = submitted where
  observe _ a o h := by
    change (a.observe o).Drawn ∧ (a.observe o).submitted = submitted
    unfold observe
    split
    · exact ⟨{ h.1 with }, h.2⟩
    · exact ⟨{ h.1 with waiting := List.Subset.trans (List.filter_subset_self _) h.1.waiting }, h.2⟩
    · exact h
  count _ a _ h := ⟨{ h.1 with }, h.2⟩
  unwind _ a h := ⟨{ h.1 with calls := nofun }, h.2⟩

end RRBase

namespace RRSys

variable [DecidableEq Sig] {P : Primitives H Sig} {D : Deployment} {dummy : QuorumCert H Sig}
  {x x' : RRSys H Sig} {blkSize : Nat}

/-- The steps of the network that a step of such replicas is made of. A condition on them is met by
steps that build nothing, and by the call of `on_propose` if the step is one. -/
theorem step_builds {cond : Sys H Sig × List (H × List UInt256) → Event H Sig → Prop}
    (hquiet : ∀ s built i, s.builds P i = none → cond (s, built) i) {e : RREvent H Sig}
    (hpropose : ∀ r ord cmds rest, e = .propose r ord → (x.base r).calls = ⟨cmds, none⟩ :: rest →
      cond (x.sys, x.built) (.propose r ord cmds (x.sys.node r).getParents []))
    (h : x.step P D e = some x') : Paced.Builds P D cond x x' := by
  have same {r : ReplicaID} {o : Option (RRBase H)} (h : o.map (x.set r) = some x') :
      Paced.Builds P D cond x x' := by
    obtain ⟨a, _, rfl⟩ := Option.map_eq_some_iff.mp h
    exact .refl
  have core {y : RRSys H Sig} {i : Event H Sig} {a : RRBase H} (hcond : cond (x.sys, x.built) i)
      (hcore : x.coreStep P D RRBase.upper i a = some y) : Paced.Builds P D cond x y :=
    Paced.coreStep_builds hcond hcore
  have await (y : RRSys H Sig) (r : ReplicaID) (blk : H) :
      Paced.Builds P D cond y (awaitQc P D y r blk) :=
    Paced.awaitQc_builds r blk _ (hquiet _ _ _ rfl)
  cases e with
  | execCommand r cmd =>
    obtain rfl := Option.some.inj h
    exact .refl
  | handleCommand r =>
    simp only [step, Option.ite_none_right_eq_some] at h
    exact same h.2
  | arrive e =>
    cases e with
    | propose _ _ _ _ _ => cases h
    | asyncQcFinish _ _ => cases h
    | runTask _ _ _ => cases h
    | _ =>
      simp only [step, Option.ite_none_right_eq_some] at h
      exact core (hquiet _ _ _ rfl) h.2
  | expire r =>
    simp only [step, Option.ite_none_right_eq_some] at h
    exact same h.2
  | asyncCall r cmds =>
    simp only [step, Option.ite_none_right_eq_some] at h
    exact same h.2
  | impeach r =>
    simp only [step, Option.ite_none_right_eq_some, Option.some.injEq] at h
    obtain ⟨_, rfl⟩ := h
    exact .refl
  | runPacemaker r =>
    simp only [step, Option.ite_none_left_eq_some] at h
    obtain ⟨a, _, rfl⟩ := Option.map_eq_some_iff.mp h.2
    split
    · exact await (x.set r a) r _
    · exact .refl
  | propose r ord =>
    simp only [step] at h
    split at h
    · rename_i cmds rest hcalls
      simp only [Option.ite_none_right_eq_some] at h
      exact core (hpropose r ord cmds rest rfl hcalls) h.2
    · cases h
  | returns r =>
    simp only [step] at h
    split at h
    · simp only [Option.ite_none_right_eq_some] at h
      obtain ⟨pm, _, hmap⟩ := Option.bind_eq_some_iff.mp h.2
      obtain ⟨y, hcore, rfl⟩ := Option.map_eq_some_iff.mp hmap
      exact (core (hquiet _ _ _ rfl) hcore).trans (await y r _)
    · cases h
  | runTask r ord =>
    simp only [step] at h
    split at h
    · cases h
    · simp only [Option.ite_none_right_eq_some] at h
      exact core (hquiet _ _ _ rfl) h.2

/-- The commands of the replicas, and of the blocks that they have built, have been submitted. -/
structure Sourced (D : Deployment) (x : RRSys H Sig) : Prop where
  drawn : ∀ r, (x.base r).Drawn
  built : ∀ b cmds, (b, cmds) ∈ x.built → ∃ r < D.n, cmds ⊆ (x.base r).submitted

omit [DecidableEq H] [DecidableEq Sig] in
/-- Something happens above the core. -/
theorem Sourced.set (h : x.Sourced D) {r : ReplicaID} {a : RRBase H} (ha : a.Drawn)
    (hsub : (x.base r).submitted ⊆ a.submitted) : Sourced D (x.set r a) := by
  have hbase (r' : ReplicaID) : (x.base r').submitted ⊆ ((x.set r a).base r').submitted ∧
      ((x.set r a).base r').Drawn := by
    by_cases hr : r' = r
    · subst hr
      simpa [Paced.set] using ⟨hsub, ha⟩
    · simpa [Paced.set, hr] using h.drawn r'
  refine ⟨fun r' => (hbase r').2, fun b cmds hmem => ?_⟩
  obtain ⟨r', hr', hcmds⟩ := h.built b cmds hmem
  exact ⟨r', hr', List.Subset.trans hcmds (hbase r').1⟩

omit [DecidableEq H] [DecidableEq Sig] in
theorem Sourced.draws (h : x.Sourced D) {r : ReplicaID} {a : RRBase H} (ha : (x.base r).Draws a) :
    Sourced D (x.set r a) :=
  h.set ha.1 (ha.2 ▸ List.Subset.refl _)

/-- The core of a replica runs. -/
theorem Sourced.coreStep (h : x.Sourced D) {r : ReplicaID} {i : Event H Sig} {a : RRBase H}
    (hat : i.at_ = r) (ha : (x.base r).Draws a) (hcore : x.coreStep P D RRBase.upper i a = some x')
    (hbuilds : ∀ b cmds, x.sys.builds P i = some (b, cmds) → cmds ⊆ a.submitted) :
    x'.Sourced D := by
  subst hat
  obtain ⟨hstep, hbuilt, hothers, hkeep⟩ := Paced.coreStep_inv hcore
  obtain ⟨hdrawn, hsub⟩ := hkeep _ (RRBase.upper_keeps_drawn a.submitted) ⟨ha.1, rfl⟩
  have hsame (r : ReplicaID) : (x'.base r).submitted = (x.base r).submitted := by
    by_cases hr : r = i.at_
    · rw [hr, hsub, ha.2]
    · rw [(hothers r hr).1]
  refine ⟨fun r => ?_, fun b cmds hmem => ?_⟩
  · by_cases hr : r = i.at_
    · rw [hr]
      exact hdrawn
    · rw [(hothers r hr).1]
      exact h.drawn r
  · rw [hbuilt] at hmem
    obtain hnew | hmem := List.mem_append.mp hmem
    · obtain ⟨hc, _⟩ := Sys.step_inv hstep
      refine ⟨i.at_, hc.1, ?_⟩
      rw [hsub]
      exact hbuilds b cmds (Option.mem_toList.mp hnew)
    · obtain ⟨r, hr, hcmds⟩ := h.built b cmds hmem
      exact ⟨r, hr, hsame r ▸ hcmds⟩

theorem Sourced.awaitQc (h : x.Sourced D) (r : ReplicaID) (blk : H) :
    Sourced D (awaitQc P D x r blk) := by
  unfold RRSys.awaitQc Paced.awaitQc
  split
  · exact ⟨h.drawn, h.built⟩
  · exact h

theorem Sourced.step (h : x.Sourced D) {e : RREvent H Sig} (hstep : x.step P D e = some x') :
    x'.Sourced D := by
  -- a step of the core that builds nothing
  have quiet {r : ReplicaID} {i : Event H Sig} {a : RRBase H} {y : RRSys H Sig} (hat : i.at_ = r)
      (ha : (x.base r).Draws a) (hnone : x.sys.builds P i = none)
      (hcore : x.coreStep P D RRBase.upper i a = some y) : y.Sourced D := by
    refine h.coreStep hat ha hcore fun b cmds hsome => ?_
    rw [hnone] at hsome
    cases hsome
  have drawn (r : ReplicaID) := h.drawn r
  cases e with
  | execCommand r cmd =>
    obtain rfl := Option.some.inj hstep
    exact h.set ((drawn r).execCommand cmd) (List.subset_cons_self _ _)
  | handleCommand r =>
    simp only [RRSys.step, Option.ite_none_right_eq_some] at hstep
    obtain ⟨a, ha, rfl⟩ := Option.map_eq_some_iff.mp hstep.2
    exact h.draws ((drawn r).handleCommand ha)
  | arrive e =>
    cases e with
    | propose _ _ _ _ _ => cases hstep
    | asyncQcFinish _ _ => cases hstep
    | runTask _ _ _ => cases hstep
    | _ =>
      simp only [RRSys.step, Option.ite_none_right_eq_some] at hstep
      exact quiet rfl (drawn _).draws rfl hstep.2
  | expire r =>
    simp only [RRSys.step, Option.ite_none_right_eq_some] at hstep
    obtain ⟨a, ha, rfl⟩ := Option.map_eq_some_iff.mp hstep.2
    exact h.draws ((drawn r).expire ha)
  | asyncCall r cmds =>
    simp only [RRSys.step, Option.ite_none_right_eq_some] at hstep
    obtain ⟨a, ha, rfl⟩ := Option.map_eq_some_iff.mp hstep.2
    exact h.draws ((drawn r).asyncCall ha)
  | impeach r =>
    simp only [RRSys.step, Option.ite_none_right_eq_some, Option.some.injEq] at hstep
    obtain ⟨_, rfl⟩ := hstep
    exact h.draws ((drawn r).with_pm _)
  | runPacemaker r =>
    simp only [RRSys.step, Option.ite_none_left_eq_some] at hstep
    obtain ⟨a, ha, rfl⟩ := Option.map_eq_some_iff.mp hstep.2
    have hset := h.draws ((drawn r).runPacemaker ha)
    split
    · exact hset.awaitQc r _
    · exact hset
  | propose r ord =>
    simp only [RRSys.step] at hstep
    split at hstep
    · rename_i cmds rest hcalls
      simp only [Option.ite_none_right_eq_some] at hstep
      have hcmds := (drawn r).calls _ (hcalls ▸ List.mem_cons_self)
      refine h.coreStep (r := r) rfl ((drawn r).with_calls (x.base r).pm fun call hcall => ?_) hstep.2
        fun b cmds' hbuilds => ?_
      · obtain rfl | hcall := List.mem_cons.mp hcall
        · exact hcmds
        · exact (drawn r).calls call (hcalls ▸ List.mem_cons_of_mem _ hcall)
      · cases hparents : (x.sys.node r).getParents with
        | nil =>
          rw [hparents] at hbuilds
          cases hbuilds
        | cons p parents =>
          rw [hparents] at hbuilds
          obtain ⟨_, rfl⟩ := Prod.mk.inj (Option.some.inj hbuilds)
          exact hcmds
    · cases hstep
  | returns r =>
    simp only [RRSys.step] at hstep
    split at hstep
    · rename_i blk below rest hcalls
      simp only [Option.ite_none_right_eq_some] at hstep
      obtain ⟨pm, _, hmap⟩ := Option.bind_eq_some_iff.mp hstep.2
      obtain ⟨y, hcore, rfl⟩ := Option.map_eq_some_iff.mp hmap
      have hpop := (drawn r).with_calls pm fun call hcall =>
        (drawn r).calls call (hcalls ▸ List.mem_cons_of_mem _ hcall)
      exact (quiet (r := r) rfl hpop rfl hcore).awaitQc r _
    · cases hstep
  | runTask r ord =>
    simp only [RRSys.step] at hstep
    split at hstep
    · cases hstep
    · simp only [Option.ite_none_right_eq_some] at hstep
      exact quiet (r := r) rfl ((drawn r).onTask _) rfl hstep.2

omit [DecidableEq Sig] in
theorem init_sourced (P : Primitives H Sig) (D : Deployment) (dummy : QuorumCert H Sig)
    (blkSize : Nat) : (init P D dummy blkSize).Sourced D :=
  ⟨fun _ => ⟨List.nil_subset _, List.nil_subset _, List.nil_subset _, nofun, nofun⟩, nofun⟩

/-- No command is made up: let every replica follow the code with `PaceMakerRR`. In every run, with any
rotations, what a replica executes has been submitted through `exec_command` at some replica. -/
theorem executes_submitted (hall : D.byzantine = ∅)
    (mds : P.leopard.Mds (RSE.setParams D.n).originalCount (RSE.setParams D.n).recoveryCount)
    (h : Transition.Reaches (step P D) (fun _ _ => True) (init P D dummy blkSize) x)
    {r : ReplicaID} (hr : r < D.n) {cmd : UInt256}
    (hcmd : cmd ∈ (decideLog (x.sys.node r).log).map (·.cmdHash)) :
    ∃ r' < D.n, cmd ∈ (x.base r').submitted := by
  have hinv : Paced.Builds P D (fun _ _ => True) (init P D dummy blkSize) x ∧ x.Sourced D := by
    apply Transition.Reaches.invariant h ⟨.refl, init_sourced P D dummy blkSize⟩
    intro x e x' hx _ hstep
    exact ⟨hx.1.trans (step_builds (fun _ _ _ _ => trivial) (fun _ _ _ _ _ _ => trivial) hstep),
      hx.2.step hstep⟩
  obtain ⟨hbuilds, hsourced⟩ := hinv
  -- the command is one of a block that has been built
  have hsub := (Sys.decided_sublist hall mds hbuilds hr).subset hcmd
  obtain ⟨⟨b, cmds⟩, hmem, hin⟩ := List.mem_flatMap.mp hsub
  obtain ⟨r', hr', hcmds⟩ := hsourced.built b cmds (List.mem_reverse.mp hmem)
  exact ⟨r', hr', hcmds hin⟩

end RRSys
end LibHotStuff
