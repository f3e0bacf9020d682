import LibHotStuff.Model.RoundRobin

namespace LibHotStuff.PMRoundRobin

variable {H : Type} [DecidableEq H] {s s' s'' : PMRoundRobin H}

/-- What the promises do not touch: the timer, the rotation, the number of beats, and the tasks that
were there. -/
structure Keeps (s s' : PMRoundRobin H) : Prop where
  timer : s'.timer = s.timer
  rotating : s'.rotating = s.rotating
  beats : s'.beats = s.beats
  tasks : s.tasks <:+ s'.tasks

namespace Keeps

omit [DecidableEq H] in
theorem refl (s : PMRoundRobin H) : s.Keeps s := ⟨rfl, rfl, rfl, List.suffix_rfl⟩

omit [DecidableEq H] in
theorem trans (h : s.Keeps s') (h' : s'.Keeps s'') : s.Keeps s'' :=
  ⟨h'.timer.trans h.timer, h'.rotating.trans h.rotating, h'.beats.trans h.beats,
    h.tasks.trans h'.tasks⟩

end Keeps

omit [DecidableEq H] in
theorem reject_keeps (s : PMRoundRobin H) (p : Option Nat) : s.Keeps (s.reject p) := by
  cases p with
  | none => exact .refl s
  | some p =>
    unfold reject
    dsimp only
    split
    · exact ⟨rfl, rfl, rfl, List.suffix_rfl⟩
    · exact .refl s

theorem asyncQcFinish_keeps (s : PMRoundRobin H) (blk : H) : s.Keeps (s.asyncQcFinish blk).2 := by
  unfold asyncQcFinish
  split
  · exact ⟨rfl, rfl, rfl, List.suffix_rfl⟩
  · split
    · exact .refl s
    · exact ⟨rfl, rfl, rfl, List.suffix_rfl⟩

omit [DecidableEq H] in
theorem thenCall_keeps (s : PMRoundRobin H) (p : Nat) (cb : QcCallback) :
    s.Keeps (s.thenCall p cb) := by
  unfold thenCall
  split
  · exact ⟨rfl, rfl, rfl, List.suffix_rfl⟩
  · exact ⟨rfl, rfl, rfl, List.suffix_cons _ _⟩
  · exact .refl s

theorem proposerScheduleNext_keeps (s : PMRoundRobin H) : s.Keeps s.proposerScheduleNext := by
  unfold proposerScheduleNext
  split
  · exact .refl s
  · rename_i pm rest _
    split
    · exact .refl s
    · have hfirst : s.Keeps { s with pendingBeats := rest } := ⟨rfl, rfl, rfl, List.suffix_rfl⟩
      have hreject := reject_keeps { s with pendingBeats := rest } s.pmQcFinish
      dsimp only
      generalize ({ s with pendingBeats := rest } : PMRoundRobin H).reject s.pmQcFinish = s₁ at *
      have hasync := asyncQcFinish_keeps s₁ s₁.lastProposed
      generalize s₁.asyncQcFinish s₁.lastProposed = q at *
      have hlock : q.2.Keeps { q.2 with pmQcFinish := some q.1, tasks := .lock :: q.2.tasks } :=
        ⟨rfl, rfl, rfl, List.suffix_cons _ _⟩
      exact hfirst.trans (hreject.trans (hasync.trans (hlock.trans (thenCall_keeps _ _ _))))

theorem doNewConsensus_keeps (s : PMRoundRobin H) (x : Nat) (blk : H) :
    s.Keeps (s.doNewConsensus x blk) := by
  have hreject := reject_keeps s s.pmQcManual
  unfold doNewConsensus
  generalize s.reject s.pmQcManual = s₁ at *
  have hasync := asyncQcFinish_keeps s₁ blk
  dsimp only
  generalize s₁.asyncQcFinish blk = q at *
  have hmanual : q.2.Keeps { q.2 with pmQcManual := some q.1 } := ⟨rfl, rfl, rfl, List.suffix_rfl⟩
  exact hreject.trans (hasync.trans (hmanual.trans (thenCall_keeps _ _ _)))

omit [DecidableEq H] in
theorem notePropBlk_keeps (s : PMRoundRobin H) (rid : ReplicaID) (blk : H) :
    s.Keeps (s.notePropBlk rid blk) := by
  unfold notePropBlk
  split
  · exact .refl s
  · exact ⟨rfl, rfl, rfl, List.suffix_rfl⟩

omit [DecidableEq H] in
theorem onReceiveProposal_keeps (s : PMRoundRobin H) (rid : ReplicaID) (blk : H) :
    s.Keeps (s.onReceiveProposal_ rid blk) := by
  unfold onReceiveProposal_
  split
  · exact (notePropBlk_keeps s rid blk).trans ⟨rfl, rfl, rfl, List.suffix_rfl⟩
  · exact .refl s

omit [DecidableEq H] in
theorem onPropose_keeps (s : PMRoundRobin H) (blk : H) : s.Keeps (s.onPropose_ blk) := by
  have hnote : s.Keeps (if s.regProposal then
      { s.notePropBlk s.id blk with regProposal := s.rotating } else s) := by
    split
    · exact (notePropBlk_keeps s s.id blk).trans ⟨rfl, rfl, rfl, List.suffix_rfl⟩
    · exact .refl s
  unfold onPropose_
  dsimp only
  generalize (if s.regProposal then
      { s.notePropBlk s.id blk with regProposal := s.rotating } else s) = s₁ at *
  split
  · apply hnote.trans
    exact ⟨rfl, rfl, rfl, ⟨[.scheduleNext, .updateLastProposed], rfl⟩⟩
  · exact hnote

omit [DecidableEq H] in
theorem onQcFinish_keeps (s : PMRoundRobin H) (blk : H) : s.Keeps (s.onQcFinish blk) := by
  unfold onQcFinish
  split
  · exact .refl s
  · dsimp only
    split
    · refine ⟨rfl, rfl, rfl, ?_⟩
      exact (List.suffix_cons _ _).trans (List.suffix_append _ _)
    · exact ⟨rfl, rfl, rfl, List.suffix_cons _ _⟩

/-- A rotating pacemaker has a timer, or `on_exp_timeout` is about to set it. -/
def Armed (s : PMRoundRobin H) : Prop :=
  s.rotating = true → s.timer.isSome = true ∨ .armRotate ∈ s.tasks

/-- The timer of a rotating pacemaker is not deleted for another block than the one that ends the
rotation, and no exception keeps `on_exp_timeout` from setting it. -/
def keepsTimer (s : PMRoundRobin H) : Event H → Bool
  | .consensus blk => !s.rotating || decide (s.propBlk s.proposer = some blk) ||
      decide (PMTask.armRotate ∈ s.tasks)
  | .throws => !s.rotating || s.timer.isSome
  | _ => true

omit [DecidableEq H] in
theorem Keeps.armed (h : s.Keeps s') (ha : s.Armed) : s'.Armed := by
  intro hr
  rw [h.rotating] at hr
  rw [h.timer]
  exact (ha hr).imp_right fun hmem => h.tasks.subset hmem

omit [DecidableEq H] in
theorem rotate_armed (s : PMRoundRobin H) : s.rotate.Armed := fun _ => Or.inl rfl

omit [DecidableEq H] in
theorem stopRotate_armed (s : PMRoundRobin H) : s.stopRotate.Armed := fun hr => nomatch hr

omit [DecidableEq H] in
theorem beat_armed (ha : s.Armed) : s.beat.Armed := by
  intro hr
  unfold beat at hr ⊢
  split
  · rw [if_pos ‹_›] at hr
    exact (ha hr).imp_right fun hmem => List.mem_cons_of_mem _ (List.mem_cons_of_mem _ hmem)
  · rw [if_neg ‹_›] at hr
    exact (ha hr).imp_right (List.mem_cons_of_mem _)

theorem mem_ite_cons {α : Type} {x : α} {l : List α} (c : Prop) [Decidable c] (y : α) (h : x ∈ l) :
    x ∈ if c then y :: l else l := by
  split
  · exact List.mem_cons_of_mem y h
  · exact h

/-- A task that is not the last one of `on_exp_timeout` has been done. -/
theorem runTask_armed (ha : s.Armed) (h : s.runTask = some s') : s'.Armed := by
  unfold runTask at h
  split at h
  · cases h
  · cases h
  · rename_i pm rest htasks
    obtain rfl := Option.some.inj h
    intro hr
    have hmem : s.timer.isSome = true ∨ .armRotate ∈ rest := by simpa [htasks] using ha hr
    exact hmem.imp_right (mem_ite_cons _ _)
  · rename_i x rest htasks
    split at h
    · obtain rfl := Option.some.inj h
      intro hr
      simpa [htasks] using ha hr
    · obtain rfl := Option.some.inj h
      intro hr
      simpa [htasks] using ha hr
  · rename_i rest htasks
    obtain rfl := Option.some.inj h
    apply (proposerScheduleNext_keeps _).armed
    intro hr
    simpa [htasks] using ha hr
  · rename_i rest htasks
    obtain rfl := Option.some.inj h
    intro hr
    simpa [htasks] using ha hr
  · rename_i rest htasks
    obtain rfl := Option.some.inj h
    intro hr
    simpa [htasks] using ha hr
  · rename_i blk rest htasks
    obtain rfl := Option.some.inj h
    intro hr
    simpa [htasks] using ha hr
  · obtain rfl := Option.some.inj h
    exact fun _ => Or.inl rfl
  · rename_i pm rest htasks
    obtain rfl := Option.some.inj h
    intro hr
    have hmem : s.timer.isSome = true ∨ .armRotate ∈ rest := by simpa [htasks] using ha hr
    exact hmem.imp_right (mem_ite_cons _ _)

theorem step_armed {e : Event H} (ha : s.Armed) (hcond : s.keepsTimer e = true)
    (h : s.step e = some s') : s'.Armed := by
  cases e with
  | impeach =>
    simp only [step, Option.ite_none_right_eq_some, Option.some.injEq] at h
    obtain ⟨_, rfl⟩ := h
    unfold impeach
    split
    · exact ha
    · exact rotate_armed s
  | expire =>
    simp only [step, Option.ite_none_right_eq_some] at h
    obtain ⟨_, h⟩ := h
    split at h
    · cases h
    · obtain rfl := Option.some.inj h
      unfold onExpTimeout
      split
      · exact fun _ => Or.inr (List.mem_cons_of_mem _ List.mem_cons_self)
      · exact fun _ => Or.inr List.mem_cons_self
    · obtain rfl := Option.some.inj h
      exact rotate_armed _
  | consensus blk =>
    simp only [step, Option.ite_none_right_eq_some, Option.some.injEq] at h
    obtain ⟨_, rfl⟩ := h
    unfold onConsensus
    dsimp only
    split
    · exact stopRotate_armed _
    · rename_i hother
      intro hr
      have hrot : s.rotating = true := hr
      simp only [keepsTimer, hrot, hother, Bool.not_true, decide_false, Bool.or_self, Bool.false_or,
        decide_eq_true_eq] at hcond
      exact Or.inr hcond
  | received rid blk =>
    simp only [step, Option.ite_none_right_eq_some, Option.some.injEq] at h
    obtain ⟨_, rfl⟩ := h
    exact (onReceiveProposal_keeps s rid blk).armed ha
  | proposed blk =>
    simp only [step, Option.ite_none_right_eq_some, Option.some.injEq] at h
    obtain ⟨_, rfl⟩ := h
    exact (onPropose_keeps s blk).armed ha
  | majority blk =>
    simp only [step, Option.ite_none_right_eq_some, Option.some.injEq] at h
    obtain ⟨_, rfl⟩ := h
    exact ha
  | qcFinish blk =>
    simp only [step, Option.ite_none_right_eq_some, Option.some.injEq] at h
    obtain ⟨_, rfl⟩ := h
    exact (onQcFinish_keeps s blk).armed ha
  | beat =>
    simp only [step, Option.ite_none_right_eq_some, Option.some.injEq] at h
    obtain ⟨_, rfl⟩ := h
    exact beat_armed ha
  | propose =>
    simp only [step, Option.ite_none_right_eq_some, Option.some.injEq] at h
    obtain ⟨_, rfl⟩ := h
    intro hr
    exact (ha hr).imp_right (List.mem_cons_of_mem _)
  | returns blk =>
    simp only [step] at h
    split at h
    · rename_i x rest htasks
      obtain rfl := Option.some.inj h
      apply (doNewConsensus_keeps _ x blk).armed
      intro hr
      simpa [htasks] using ha hr
    · rename_i rest htasks
      obtain rfl := Option.some.inj h
      intro hr
      simpa [htasks] using ha hr
    · cases h
  | throws =>
    simp only [step] at h
    split at h
    · obtain rfl := Option.some.inj h
      intro hr
      have hrot : s.rotating = true := hr
      simp only [keepsTimer, hrot, Bool.not_true, Bool.false_or] at hcond
      exact Or.inl hcond
    · cases h
  | tcall waiting =>
    simp only [step, Option.ite_none_right_eq_some, Bool.and_eq_true, Option.some.injEq] at h
    obtain ⟨⟨hnil, _⟩, rfl⟩ := h
    rw [List.isEmpty_iff] at hnil
    intro hr
    have hold := ha hr
    rw [hnil] at hold
    exact Or.inl (hold.resolve_right List.not_mem_nil)
  | run => exact runTask_armed ha h

/-- A rotating pacemaker has an armed timer between two handlers, in every run in which the timer
is not deleted for another block than the one that ends the rotation. -/
theorem rotating_timer {id n : Nat} {b0 : H}
    (h : Transition.Reaches step (fun s e => s.keepsTimer e = true) (init id n b0) s)
    (hidle : s.tasks = []) (hrot : s.rotating = true) :
    s.timer = some .onExpTimeout ∨ s.timer = some .rotate := by
  have ha : s.Armed := h.invariant (stopRotate_armed _) fun _ _ _ ha hc hs => step_armed ha hc hs
  have hsome := (ha hrot).resolve_right (by rw [hidle]; exact List.not_mem_nil)
  cases htimer : s.timer with
  | none =>
    rw [htimer] at hsome
    cases hsome
  | some cb =>
    cases cb with
    | onExpTimeout => exact Or.inl rfl
    | rotate => exact Or.inr rfl

/-- The proposer is impeached and the next one is rotated away once, then its proposal is received. -/
theorem rotating_timer_twice : ∃ s : PMRoundRobin Nat, s.tasks = [] ∧ s.rotating = true ∧
    s.proposer = 2 ∧ (s.timer = some .onExpTimeout ∨ s.timer = some .rotate) := by
  let seen (s : PMRoundRobin Nat) := (s.tasks, s.rotating, s.proposer)
  have hrun : (Transition.runBy step (fun s e => s.keepsTimer e = true) (init 0 4 (0 : Nat))
      [.impeach, .expire, .run, .expire, .received 2 7]).map seen = some ([], true, 2) := by
    decide
  obtain ⟨s, hreach, hseen⟩ := Transition.runBy_map_reaches hrun
  simp only [seen, Prod.mk.injEq] at hseen
  exact ⟨s, hseen.1, hseen.2.1, hseen.2.2, rotating_timer hreach hseen.1 hseen.2.1⟩

/-- A block of the old proposer is committed inside the rotation, and its timer is gone. -/
theorem rotating_without_timer : ∃ s : PMRoundRobin Nat,
    Transition.Reaches step (fun _ _ => True) (init 0 4 0) s ∧ s.tasks = [] ∧ s.rotating = true ∧
      ¬ (s.timer = some .onExpTimeout ∨ s.timer = some .rotate) := by
  let seen (s : PMRoundRobin Nat) := (s.tasks, s.rotating, s.timer)
  have hrun : (Transition.runBy step (fun _ _ => True) (init 0 4 (0 : Nat))
      [.impeach, .consensus 5]).map seen = some ([], true, none) := by decide
  obtain ⟨s, hreach, hseen⟩ := Transition.runBy_map_reaches hrun
  simp only [seen, Prod.mk.injEq] at hseen
  refine ⟨s, hreach, hseen.1, hseen.2.1, ?_⟩
  rw [hseen.2.2]
  simp

end LibHotStuff.PMRoundRobin
