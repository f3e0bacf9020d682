import LibHotStuff.Proofs.Commit
import LibHotStuff.Proofs.SubmissionOrder

/-! The callbacks that `exec_command` has been given, and the calls of them. -/

namespace LibHotStuff

variable {H Sig C : Type} [DecidableEq H]

/-- The finality of a decision, if the call is about one. -/
def CommitCall.finality? : CommitCall H → Option (Finality H)
  | .waiting _ _ => none
  | .decided fin => some fin

/-- An entry of a map and the others. -/
theorem perm_cons_erased {l : List (UInt256 × C)} {p : UInt256 × C}
    (hkeys : (l.map Prod.fst).Nodup) (hp : p ∈ l) : l.Perm (p :: l.filter (·.1 ≠ p.1)) := by
  induction l with
  | nil => cases hp
  | cons q l ih =>
    obtain ⟨hq, hkeys⟩ := List.nodup_cons.mp hkeys
    obtain rfl | hp := List.mem_cons.mp hp
    · have hall : l.filter (·.1 ≠ p.1) = l := by
        rw [List.filter_eq_self]
        intro b hb
        apply decide_eq_true
        intro heq
        exact hq (heq ▸ List.mem_map_of_mem hb)
      rw [List.filter_cons_of_neg (by simp), hall]
    · have hne : q.1 ≠ p.1 := fun heq => hq (heq ▸ List.mem_map_of_mem hp)
      rw [List.filter_cons_of_pos (by simpa using hne)]
      exact ((ih hkeys hp).cons q).trans (.swap p q _)

namespace DummyBase

/-- The commands and callbacks that have been called. -/
def answered (a : DummyBase H C) : List (UInt256 × C) :=
  a.replies.map fun (callback, call) => (call.cmdHash, callback)

/-- The decisions that callbacks have been called with. -/
def reported (a : DummyBase H C) : List (Finality H) := a.replies.filterMap (·.2.finality?)

/-- Each callback waits in one place, or it has been called once: with a decision of the replica, or
when another callback waited for the same command. -/
structure Accounted (a : DummyBase H C) (log : List (Output H Sig)) : Prop where
  perm : a.submitted.Perm (a.cmdPending ++ (a.decisionWaiting ++ a.answered))
  keys : (a.decisionWaiting.map Prod.fst).Nodup
  reported : a.reported.Sublist (decideLog log)
  repeated : ∀ callback rid cmd, (callback, .waiting rid cmd) ∈ a.replies →
    2 ≤ (a.submitted.map Prod.fst).count cmd

variable {a a' : DummyBase H C} {log : List (Output H Sig)}

namespace Accounted

omit [DecidableEq H] in
theorem execCommand (h : a.Accounted log) (cmd : UInt256) (callback : C) :
    (a.execCommand cmd callback).Accounted log where
  perm := by
    change (a.submitted ++ [(cmd, callback)]).Perm
      (a.cmdPending ++ [(cmd, callback)] ++ (a.decisionWaiting ++ a.answered))
    refine (h.perm.append_right _).trans ?_
    rw [List.append_assoc a.cmdPending, List.append_assoc a.cmdPending [(cmd, callback)]]
    exact List.perm_append_comm.append_left _
  keys := h.keys
  reported := h.reported
  repeated callback' rid cmd' hmem := by
    have hle := h.repeated callback' rid cmd' hmem
    simp only [DummyBase.execCommand, List.map_append, List.count_append]
    omega

omit [DecidableEq H] in
/-- The next command of `cmd_pending` enters `decision_waiting`. -/
theorem await (h : a.Accounted log) {cmd : UInt256} {callback : C} {rest : List (UInt256 × C)}
    (hpend : a.cmdPending = (cmd, callback) :: rest) :
    (DummyBase.await { a with cmdPending := rest } cmd callback).Accounted log := by
  have hperm := h.perm
  rw [hpend] at hperm
  unfold DummyBase.await
  split
  · rename_i hwaits
    refine ⟨?_, h.keys, ?_, fun callback' rid cmd' hmem => ?_⟩
    · simp only [answered, List.map_append, List.map_singleton, CommitCall.cmdHash]
      refine hperm.trans ?_
      rw [← List.append_assoc a.decisionWaiting _ [(cmd, callback)],
        ← List.append_assoc rest _ [(cmd, callback)]]
      exact (List.perm_append_singleton _ _).symm
    · simpa [DummyBase.reported, CommitCall.finality?] using h.reported
    · obtain hmem | hmem := List.mem_append.mp hmem
      · exact h.repeated callback' rid cmd' hmem
      · obtain ⟨_, hcall⟩ := Prod.mk.inj (List.mem_singleton.mp hmem)
        obtain ⟨_, rfl⟩ := CommitCall.waiting.inj hcall
        -- one of them has been taken out of `cmd_pending`, and one waits
        obtain ⟨p, hp, heq⟩ := List.any_eq_true.mp hwaits
        have hpos : 0 < (a.decisionWaiting.map Prod.fst).count cmd' := by
          rw [List.count_pos_iff, ← of_decide_eq_true heq]
          exact List.mem_map_of_mem hp
        rw [(hperm.map Prod.fst).count_eq]
        simp only [List.map_append, List.count_append, List.map_cons, List.count_cons_self]
        omega
  · rename_i hwaits
    refine ⟨?_, ?_, h.reported, h.repeated⟩
    · refine hperm.trans ?_
      rw [List.append_assoc, List.singleton_append]
      exact List.perm_middle.symm.trans (List.perm_middle.symm.append_left rest)
    · rw [List.map_append, List.map_singleton, List.nodup_append]
      refine ⟨h.keys, List.nodup_singleton _, ?_⟩
      rintro k hk _ hcmd rfl
      obtain rfl := List.mem_singleton.mp hcmd
      obtain ⟨p, hp, rfl⟩ := List.mem_map.mp hk
      exact hwaits (List.any_eq_true.mpr ⟨p, hp, decide_eq_true rfl⟩)

omit [DecidableEq H] in
/-- Nothing else is part of it. -/
theorem of_eq (h : a.Accounted log) (hsub : a'.submitted = a.submitted)
    (hpend : a'.cmdPending = a.cmdPending) (hwait : a'.decisionWaiting = a.decisionWaiting)
    (hrep : a'.replies = a.replies) : a'.Accounted log := by
  obtain ⟨hperm, hkeys, hreported, hrepeated⟩ := h
  constructor
  · rwa [hsub, hpend, hwait, answered, hrep]
  · rwa [hwait]
  · rwa [DummyBase.reported, hrep]
  · rwa [hsub, hrep]

omit [DecidableEq H] in
theorem with_pm (h : a.Accounted log) (pm : PMWaitQC H) : Accounted { a with pm := pm } log :=
  h.of_eq rfl rfl rfl rfl

omit [DecidableEq H] in
theorem handleCommand (h : a.Accounted log) (hcmd : a.handleCommand = some a') :
    a'.Accounted log := by
  unfold DummyBase.handleCommand at hcmd
  split at hcmd
  · cases hcmd
  · rename_i cmd callback rest hpend
    obtain rfl := Option.some.inj hcmd
    have hawait := h.await hpend
    split
    · unfold buffer
      dsimp only
      split <;> exact hawait.of_eq rfl rfl rfl rfl
    · exact hawait

omit [DecidableEq H] in
/-- The core decides a command, or makes another call. -/
theorem observe (h : a.Accounted log) (o : Output H Sig) : (a.observe o).Accounted (log ++ [o]) := by
  have hlog : (decideLog log).Sublist (decideLog (log ++ [o])) := by
    rw [decideLog_append]
    exact List.sublist_append_left _ _
  unfold DummyBase.observe
  split
  · rename_i fin
    split
    · exact ⟨h.perm, h.keys, h.reported.trans hlog, h.repeated⟩
    · rename_i k callback hfind
      have hmem := List.mem_of_find?_eq_some hfind
      obtain rfl : k = fin.cmdHash := by simpa using List.find?_some hfind
      refine ⟨?_, h.keys.sublist (List.filter_sublist.map _), ?_, fun callback' rid cmd hc => ?_⟩
      · refine h.perm.trans (.append_left _ ?_)
        simp only [answered, List.map_append, List.map_singleton, CommitCall.cmdHash]
        refine ((perm_cons_erased h.keys hmem).append_right _).trans ?_
        rw [← List.append_assoc, List.cons_append]
        exact (List.perm_append_singleton _ _).symm
      · simp only [DummyBase.reported, List.filterMap_append, decideLog_append]
        exact h.reported.append (List.Sublist.refl _)
      · obtain hc | hc := List.mem_append.mp hc
        · exact h.repeated callback' rid cmd hc
        · cases List.mem_singleton.mp hc
  · exact ⟨h.perm, h.keys, h.reported.trans hlog, h.repeated⟩

end Accounted

omit [DecidableEq H] in
theorem upper_keeps_accounted : Paced.Keeps (DummyBase.upper : Upper H Sig (DummyBase H C))
    fun log a => a.Accounted log where
  observe _ _ o h := h.observe o
  count _ _ _ h := h.of_eq rfl rfl rfl rfl
  unwind _ _ h := h.of_eq rfl rfl rfl rfl

end DummyBase

namespace DummySys

variable [DecidableEq Sig] {P : Primitives H Sig} {D : Deployment} {dummy : QuorumCert H Sig}
  {x x' : DummySys H Sig C} {r : ReplicaID} {blkSize : Nat} {fixed : Option ReplicaID}

/-- The callbacks of each replica are accounted for. -/
def Accounted (x : DummySys H Sig C) : Prop := ∀ r, (x.base r).Accounted (x.sys.node r).log

omit [DecidableEq H] [DecidableEq Sig] in
theorem Accounted.set (h : x.Accounted) {a : DummyBase H C} (ha : a.Accounted (x.sys.node r).log) :
    Accounted (x.set r a) := by
  intro r'
  by_cases hr : r' = r
  · subst hr
    simpa [Paced.set] using ha
  · simpa [Paced.set, hr] using h r'

theorem Accounted.coreStep (h : x.Accounted) {e : Event H Sig} {a : DummyBase H C} (hat : e.at_ = r)
    (ha : a.Accounted (x.sys.node r).log) (hcore : x.coreStep P D DummyBase.upper e a = some x') :
    x'.Accounted := by
  subst hat
  obtain ⟨_, _, hothers, hkeep⟩ := Paced.coreStep_inv hcore
  intro r
  by_cases hr : r = e.at_
  · subst hr
    exact hkeep _ DummyBase.upper_keeps_accounted ha
  · obtain ⟨hbase, hnode⟩ := hothers r hr
    rw [hbase, hnode]
    exact h r

theorem Accounted.step (h : x.Accounted) (hstep : Stepped P D x r x') : x'.Accounted := by
  have hr := h r
  cases hstep with
  | command _ hcmd => exact h.set (hr.handleCommand hcmd)
  | arrive _ hat _ hcore => exact h.coreStep hat hr hcore
  | run _ blk waits =>
    intro r'
    rw [Paced.awaitQc_base, Paced.awaitQc_log]
    exact h.set (hr.with_pm _) r'
  | propose _ _ _ hcore => exact h.coreStep rfl (hr.with_pm _) hcore
  | returns _ hcore => exact h.coreStep rfl (hr.with_pm _) hcore
  | @task t _ _ _ _ _ _ hcore =>
    refine h.coreStep rfl ?_ hcore
    unfold DummyBase.onTask
    split
    · exact hr.with_pm _
    · exact hr.with_pm _
    · exact hr

theorem Reachable.accounted (h : x.Reachable P D dummy blkSize fixed) : x.Accounted := by
  apply Transition.Reaches.invariant h
  · exact fun r => ⟨.refl _, List.nodup_nil, List.Sublist.refl _, nofun⟩
  · intro x e x' hx _ hstep
    obtain ⟨r, cmd, callback, _, rfl⟩ | ⟨r, hstepped⟩ := step_stepped hstep
    · exact hx.set ((hx r).execCommand cmd callback)
    · exact hx.step hstepped

/-- No callback is lost or called twice: in every run, at each replica, those that `exec_command` has
been given are, each as often as it has been given, those in `cmd_pending`, those in
`decision_waiting` and those that have been called. The calls with a decision are for decisions of
the replica, each for another one and in their order; the other calls are for commands that have
been submitted at this replica more than once. -/
theorem callbacks_once (h : x.Reachable P D dummy blkSize fixed) (r : ReplicaID) :
    (x.base r).submitted.Perm
      ((x.base r).cmdPending ++ ((x.base r).decisionWaiting ++ (x.base r).answered)) ∧
    (x.base r).reported.Sublist (decideLog (x.sys.node r).log) ∧
    ∀ callback rid cmd, (callback, .waiting rid cmd) ∈ (x.base r).replies →
      2 ≤ ((x.base r).submitted.map Prod.fst).count cmd := by
  have ha := h.accounted r
  exact ⟨ha.perm, ha.reported, ha.repeated⟩

end DummySys

/-- The callback of the first command has been called, and the others wait. -/
theorem Concrete.callbacks_once_queued : ∃ x : DummySys Nat Signature Nat,
    queueSeen x = ([command 1], [1, 2, 3, 4].map command) ∧
      (x.base 0).submitted.Perm
        ((x.base 0).cmdPending ++ ((x.base 0).decisionWaiting ++ (x.base 0).answered)) := by
  obtain ⟨x, hreach, hseen⟩ := Transition.runBy_map_reaches queued_run
  exact ⟨x, hseen, (DummySys.callbacks_once hreach 0).1⟩

end LibHotStuff
