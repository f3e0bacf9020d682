import LibHotStuff.Proofs.RoundRobin

namespace LibHotStuff.PMRoundRobin

variable {H : Type} [DecidableEq H] {s s' s'' s₀ : PMRoundRobin H} {pm : Nat}

/-- The callback of the pending promise `pm_qc_finish` holds the promise of `beat`. -/
def Captured (s : PMRoundRobin H) (pm : Nat) : Prop :=
  ∃ p cbs, s.pmQcFinish = some p ∧ s.promises[p]? = some (.pending cbs) ∧ .resolveBeat pm ∈ cbs

/-- A promise of `beat` is resolved, or something that is still there will resolve it. -/
def Accounted (s : PMRoundRobin H) (pm : Nat) : Prop :=
  pm ∈ s.resolvedBeats ∨ pm ∈ s.pendingBeats ∨ s.Captured pm ∨
    .callback (.resolveBeat pm) ∈ s.tasks

/-- The event calls neither `rotate` nor `stop_rotate`. -/
def stays (s : PMRoundRobin H) : Event H → Bool
  | .impeach => s.rotating
  | .expire => decide (s.timer ≠ some .rotate)
  | .consensus blk => decide (s.propBlk s.proposer ≠ some blk)
  | _ => true

def isPending (s : PMRoundRobin H) (p : Option Nat) : Bool :=
  match p.bind (s.promises[·]?) with
  | some (.pending _) => true
  | _ => false

/-- `async_qc_finish` gives a promise that is not rejected. -/
def isLive (s : PMRoundRobin H) (blk : H) : Bool :=
  s.voted blk || (s.qcWaiting blk).all fun p =>
    match s.promises[p]? with
    | some (.pending _) => true
    | some .resolved => true
    | _ => false

def isBeatCallback : PMTask H → Bool
  | .callback (.resolveBeat _) => true
  | _ => false

/-- A beat is scheduled when no other one waits for `pm_qc_finish`, and then waits for a promise
that is not rejected; `do_new_consensus` does not reject `pm_qc_finish`; and no exception drops a
callback. -/
def keepsBeats (s : PMRoundRobin H) : Event H → Bool
  | .run =>
    match s.tasks with
    | .scheduleNext :: _ =>
      s.pendingBeats.isEmpty || s.locked || (!s.isPending s.pmQcFinish && s.isLive s.lastProposed)
    | _ => true
  | .returns _ =>
    match s.tasks with
    | .proposing (some _) :: _ => decide (s.pmQcManual ≠ s.pmQcFinish) || !s.isPending s.pmQcFinish
    | _ => true
  | .throws => !s.tasks.any isBeatCallback
  | _ => true

/-- No promise of `beat` is given up. -/
structure Retains (s s' : PMRoundRobin H) : Prop where
  resolved : s.resolvedBeats ⊆ s'.resolvedBeats
  pending : s.pendingBeats ⊆ s'.pendingBeats
  captured : ∀ pm, s.Captured pm → s'.Captured pm
  tasks : ∀ pm, .callback (.resolveBeat pm) ∈ s.tasks → .callback (.resolveBeat pm) ∈ s'.tasks

namespace Retains

omit [DecidableEq H] in
theorem refl (s : PMRoundRobin H) : s.Retains s :=
  ⟨List.Subset.refl _, List.Subset.refl _, fun _ h => h, fun _ h => h⟩

omit [DecidableEq H] in
theorem trans (h : s.Retains s') (h' : s'.Retains s'') : s.Retains s'' where
  resolved := List.Subset.trans h.resolved h'.resolved
  pending := List.Subset.trans h.pending h'.pending
  captured := fun pm hpm => h'.captured pm (h.captured pm hpm)
  tasks := fun pm hpm => h'.tasks pm (h.tasks pm hpm)

omit [DecidableEq H] in
/-- Nothing that is about beats changes, and tasks may be added. -/
theorem of_eq (hr : s'.resolvedBeats = s.resolvedBeats) (hb : s'.pendingBeats = s.pendingBeats)
    (hf : s'.pmQcFinish = s.pmQcFinish) (hp : s'.promises = s.promises)
    (ht : ∀ t ∈ s.tasks, isBeatCallback t = true → t ∈ s'.tasks) : s.Retains s' where
  resolved := by rw [hr]; exact List.Subset.refl _
  pending := by rw [hb]; exact List.Subset.refl _
  captured := by
    intro pm hpm
    unfold Captured
    rw [hf, hp]
    exact hpm
  tasks := fun pm hmem => ht _ hmem rfl

omit [DecidableEq H] in
theorem accounted (h : s.Retains s') (ha : s.Accounted pm) : s'.Accounted pm :=
  ha.imp (@h.resolved _) (Or.imp (@h.pending _) (Or.imp (h.captured pm) (h.tasks pm)))

end Retains

omit [DecidableEq H] in
theorem accounted_of_eq (ha : s.Accounted pm) (hr : s'.resolvedBeats = s.resolvedBeats)
    (hb : s'.pendingBeats = s.pendingBeats) (hf : s'.pmQcFinish = s.pmQcFinish)
    (hp : s'.promises = s.promises) (ht : ∀ t ∈ s.tasks, isBeatCallback t = true → t ∈ s'.tasks) :
    s'.Accounted pm :=
  (Retains.of_eq hr hb hf hp ht).accounted ha

omit [DecidableEq H] in
theorem Captured.isPending (h : s.Captured pm) : s.isPending s.pmQcFinish = true := by
  obtain ⟨p, cbs, hp, hcbs, _⟩ := h
  simp [PMRoundRobin.isPending, hp, hcbs]

omit [DecidableEq H] in
/-- A rejected promise that is not `pm_qc_finish`, or `pm_qc_finish` when it is settled. -/
theorem reject_retains {p : Option Nat}
    (hp : p ≠ s.pmQcFinish ∨ s.isPending s.pmQcFinish = false) : s.Retains (s.reject p) := by
  cases p with
  | none => exact .refl s
  | some p =>
    unfold reject
    dsimp only
    split
    · refine ⟨List.Subset.refl _, List.Subset.refl _, ?_, fun _ h => h⟩
      intro pm hcap
      have hne : some p ≠ s.pmQcFinish := by
        apply hp.resolve_right
        rw [hcap.isPending]
        exact Bool.noConfusion
      obtain ⟨q, cbs, hq, hcbs, hmem⟩ := hcap
      refine ⟨q, cbs, hq, ?_, hmem⟩
      rw [List.getElem?_set_ne]
      · exact hcbs
      · intro heq
        exact hne (heq ▸ hq.symm)
    · exact .refl s

theorem asyncQcFinish_retains (s : PMRoundRobin H) (blk : H) :
    s.Retains (s.asyncQcFinish blk).2 := by
  have happend (x : QcPromise) (pm : Nat) (h : s.Captured pm) :
      ∃ p cbs, s.pmQcFinish = some p ∧ (s.promises ++ [x])[p]? = some (.pending cbs) ∧
        .resolveBeat pm ∈ cbs := by
    obtain ⟨p, cbs, hp, hcbs, hmem⟩ := h
    refine ⟨p, cbs, hp, ?_, hmem⟩
    rw [List.getElem?_append_left (List.getElem?_eq_some_iff.mp hcbs).1]
    exact hcbs
  unfold asyncQcFinish
  split
  · exact ⟨List.Subset.refl _, List.Subset.refl _, happend _, fun _ h => h⟩
  · split
    · exact .refl s
    · exact ⟨List.Subset.refl _, List.Subset.refl _, happend _, fun _ h => h⟩

omit [DecidableEq H] in
theorem thenCall_retains (s : PMRoundRobin H) (p : Nat) (cb : QcCallback) :
    s.Retains (s.thenCall p cb) := by
  unfold thenCall
  split
  · rename_i cbs hp
    refine ⟨List.Subset.refl _, List.Subset.refl _, ?_, fun _ h => h⟩
    intro pm hcap
    obtain ⟨q, cbs', hq, hcbs, hmem⟩ := hcap
    by_cases heq : p = q
    · subst heq
      obtain rfl : cbs = cbs' := by
        rw [hp] at hcbs
        injection hcbs with hcbs
        injection hcbs
      refine ⟨p, cbs ++ [cb], hq, ?_, List.mem_append_left _ hmem⟩
      exact List.getElem?_set_self (List.getElem?_eq_some_iff.mp hp).1
    · refine ⟨q, cbs', hq, ?_, hmem⟩
      rw [List.getElem?_set_ne heq]
      exact hcbs
  · exact .of_eq rfl rfl rfl rfl fun t ht _ => List.mem_cons_of_mem _ ht
  · exact .refl s

theorem doNewConsensus_retains {x : Nat} {blk : H}
    (h : s.pmQcManual ≠ s.pmQcFinish ∨ s.isPending s.pmQcFinish = false) :
    s.Retains (s.doNewConsensus x blk) := by
  have hreject := reject_retains h
  unfold doNewConsensus
  generalize s.reject s.pmQcManual = s₁ at *
  have hasync := asyncQcFinish_retains s₁ blk
  dsimp only
  generalize s₁.asyncQcFinish blk = q at *
  have hmanual : q.2.Retains { q.2 with pmQcManual := some q.1 } :=
    .of_eq rfl rfl rfl rfl fun t ht _ => ht
  exact hreject.trans (hasync.trans (hmanual.trans (thenCall_retains _ _ _)))

/-- The promise of `async_qc_finish` is pending or resolved. -/
theorem asyncQcFinish_live {blk : H} (h : s.isLive blk = true) :
    (∃ cbs, (s.asyncQcFinish blk).2.promises[(s.asyncQcFinish blk).1]? = some (.pending cbs)) ∨
      (s.asyncQcFinish blk).2.promises[(s.asyncQcFinish blk).1]? = some .resolved := by
  unfold isLive at h
  unfold asyncQcFinish
  split
  · apply Or.inr
    exact List.getElem?_concat_length
  · rename_i hvoted
    simp only [hvoted, Bool.false_or] at h
    split
    · rename_i p hp
      rw [hp] at h
      simp only [Option.all_some] at h
      split at h
      · rename_i cbs hcbs
        exact Or.inl ⟨cbs, hcbs⟩
      · rename_i hres
        exact Or.inr hres
      · cases h
    · exact Or.inl ⟨[], List.getElem?_concat_length⟩

omit [DecidableEq H] in
/-- The callback of a promise that is not rejected is kept or called. -/
theorem thenCall_accounted {p : Nat} (hfinish : s.pmQcFinish = some p)
    (hp : (∃ cbs, s.promises[p]? = some (.pending cbs)) ∨ s.promises[p]? = some .resolved) :
    (s.thenCall p (.resolveBeat pm)).Accounted pm := by
  obtain ⟨cbs, hcbs⟩ | hres := hp
  · have hthen : s.thenCall p (.resolveBeat pm) =
        { s with promises := s.promises.set p (.pending (cbs ++ [.resolveBeat pm])) } := by
      simp [thenCall, hcbs]
    have hlt := (List.getElem?_eq_some_iff.mp hcbs).1
    rw [hthen]
    apply Or.inr
    apply Or.inr
    apply Or.inl
    exact ⟨p, cbs ++ [.resolveBeat pm], hfinish, List.getElem?_set_self hlt, by simp⟩
  · have hthen : s.thenCall p (.resolveBeat pm) =
        { s with tasks := .callback (.resolveBeat pm) :: s.tasks } := by
      simp [thenCall, hres]
    rw [hthen]
    apply Or.inr
    apply Or.inr
    apply Or.inr
    exact List.mem_cons_self

theorem proposerScheduleNext_accounted
    (hcond : s.pendingBeats.isEmpty = true ∨ s.locked = true ∨
      s.isPending s.pmQcFinish = false ∧ s.isLive s.lastProposed = true)
    (ha : s.Accounted pm) : s.proposerScheduleNext.Accounted pm := by
  unfold proposerScheduleNext
  split
  · exact ha
  · rename_i first rest hpending
    split
    · exact ha
    · rename_i hlocked
      rw [hpending] at hcond
      obtain ⟨hidle, hlive⟩ := (hcond.resolve_left nofun).resolve_left hlocked
      have hreject : ({ s with pendingBeats := rest } : PMRoundRobin H).reject s.pmQcFinish =
          { s with pendingBeats := rest } := by
        unfold reject
        unfold isPending at hidle
        split
        · rfl
        · rename_i p hp
          rw [hp] at hidle
          split
          · rename_i cbs hcbs
            rw [Option.bind_some, hcbs] at hidle
            cases hidle
          · rfl
      dsimp only
      rw [hreject]
      have hasync := asyncQcFinish_retains { s with pendingBeats := rest } s.lastProposed
      have hpromise := asyncQcFinish_live (s := { s with pendingBeats := rest }) hlive
      generalize ({ s with pendingBeats := rest } : PMRoundRobin H).asyncQcFinish s.lastProposed = q
        at *
      have hnew : (({ q.2 with pmQcFinish := some q.1, tasks := .lock :: q.2.tasks } :
          PMRoundRobin H).thenCall q.1 (.resolveBeat first)).Accounted first :=
        thenCall_accounted rfl hpromise
      have hthen := thenCall_retains
        { q.2 with pmQcFinish := some q.1, tasks := .lock :: q.2.tasks } q.1 (.resolveBeat first)
      obtain hres | hpend | hcap | htask := ha
      · exact Or.inl (hthen.resolved (hasync.resolved hres))
      · rw [hpending] at hpend
        obtain rfl | hrest := List.mem_cons.mp hpend
        · exact hnew
        · exact Or.inr (Or.inl (hthen.pending (hasync.pending hrest)))
      · rw [hcap.isPending] at hidle
        cases hidle
      · apply Or.inr
        apply Or.inr
        apply Or.inr
        exact hthen.tasks pm (List.mem_cons_of_mem _ (hasync.tasks pm htask))

omit [DecidableEq H] in
theorem onQcFinish_accounted {blk : H} (ha : s.Accounted pm) : (s.onQcFinish blk).Accounted pm := by
  unfold onQcFinish
  split
  · exact ha
  · rename_i p hp
    dsimp only
    split
    · rename_i cbs hcbs
      obtain hres | hpend | hcap | htask := ha
      · exact Or.inl hres
      · exact Or.inr (Or.inl hpend)
      · obtain ⟨q, cbs', hq, hcbs', hmem⟩ := hcap
        by_cases heq : p = q
        · subst heq
          obtain rfl : cbs = cbs' := by
            rw [hcbs] at hcbs'
            injection hcbs' with hcbs'
            injection hcbs'
          apply Or.inr
          apply Or.inr
          apply Or.inr
          exact List.mem_append_left _ (List.mem_map_of_mem hmem)
        · apply Or.inr
          apply Or.inr
          apply Or.inl
          refine ⟨q, cbs', hq, ?_, hmem⟩
          rw [List.getElem?_set_ne heq]
          exact hcbs'
      · apply Or.inr
        apply Or.inr
        apply Or.inr
        exact List.mem_append_right _ (List.mem_cons_of_mem _ htask)
    · have hkeep : s.Retains { s with tasks := .eraseQcWaiting blk :: s.tasks } :=
        .of_eq rfl rfl rfl rfl fun t ht _ => List.mem_cons_of_mem _ ht
      exact hkeep.accounted ha

omit [DecidableEq H] in
theorem onReceiveProposal_retains (rid : ReplicaID) (blk : H) :
    s.Retains (s.onReceiveProposal_ rid blk) := by
  unfold onReceiveProposal_ notePropBlk
  split
  · split
    · exact .of_eq rfl rfl rfl rfl fun t ht _ => ht
    · exact .of_eq rfl rfl rfl rfl fun t ht _ => ht
  · exact .refl s

omit [DecidableEq H] in
theorem onPropose_retains (blk : H) : s.Retains (s.onPropose_ blk) := by
  have hnote : s.Retains (if s.regProposal then
      { s.notePropBlk s.id blk with regProposal := s.rotating } else s) := by
    unfold notePropBlk
    split
    · split
      · exact .of_eq rfl rfl rfl rfl fun t ht _ => ht
      · exact .of_eq rfl rfl rfl rfl fun t ht _ => ht
    · exact .refl s
  unfold onPropose_
  dsimp only
  generalize (if s.regProposal then
      { s.notePropBlk s.id blk with regProposal := s.rotating } else s) = s₁ at *
  split
  · apply hnote.trans
    exact .of_eq rfl rfl rfl rfl fun t ht _ =>
      List.mem_cons_of_mem _ (List.mem_cons_of_mem _ ht)
  · exact hnote

omit [DecidableEq H] in
theorem onExpTimeout_retains (s : PMRoundRobin H) : s.Retains s.onExpTimeout := by
  unfold onExpTimeout
  split
  · exact .of_eq rfl rfl rfl rfl fun t ht _ => List.mem_cons_of_mem _ (List.mem_cons_of_mem _ ht)
  · exact .of_eq rfl rfl rfl rfl fun t ht _ => List.mem_cons_of_mem _ ht

omit [DecidableEq H] in
theorem beat_retains : s.Retains s.beat := by
  unfold beat
  split
  · refine ⟨List.Subset.refl _, List.subset_append_left _ _, fun _ h => h, ?_⟩
    intro pm hmem
    exact List.mem_cons_of_mem _ (List.mem_cons_of_mem _ hmem)
  · refine ⟨List.subset_cons_self _ _, List.Subset.refl _, fun _ h => h, ?_⟩
    intro pm hmem
    exact List.mem_cons_of_mem _ hmem

omit [DecidableEq H] in
/-- The promise that `beat` has just returned is accounted for. -/
theorem beat_accounted : s.beat.Accounted s.beats := by
  unfold beat
  split
  · exact Or.inr (Or.inl (List.mem_append_right _ List.mem_cons_self))
  · exact Or.inl List.mem_cons_self

omit [DecidableEq H] in
/-- The head task is done, and is not the callback of a beat. -/
theorem drop_accounted {t : PMTask H} {rest : List (PMTask H)} (ha : s.Accounted pm)
    (htasks : s.tasks = t :: rest) (hr : s'.resolvedBeats = s.resolvedBeats)
    (hb : s'.pendingBeats = s.pendingBeats) (hf : s'.pmQcFinish = s.pmQcFinish) (hp : s'.promises = s.promises)
    (hrest : ∀ u ∈ rest, u ∈ s'.tasks) (ht : isBeatCallback t = false) :
    s'.Accounted pm := by
  apply accounted_of_eq ha hr hb hf hp
  intro u hu hbeat
  rw [htasks] at hu
  obtain rfl | hu := List.mem_cons.mp hu
  · rw [ht] at hbeat
    cases hbeat
  · exact hrest u hu

theorem runTask_accounted (ha : s.Accounted pm) (hcond : s.keepsBeats .run = true)
    (h : s.runTask = some s') : s'.Accounted pm := by
  unfold runTask at h
  split at h
  · cases h
  · cases h
  · -- the promise is resolved, or its callback is still to come
    rename_i first rest htasks
    obtain rfl := Option.some.inj h
    obtain hres | hpend | hcap | htask := ha
    · exact Or.inl (List.mem_cons_of_mem _ hres)
    · exact Or.inr (Or.inl hpend)
    · exact Or.inr (Or.inr (Or.inl hcap))
    · rw [htasks] at htask
      obtain heq | hrest := List.mem_cons.mp htask
      · injection heq with heq
        injection heq with heq
        exact Or.inl (heq ▸ List.mem_cons_self)
      · exact Or.inr (Or.inr (Or.inr (mem_ite_cons _ _ hrest)))
  · rename_i x rest htasks
    split at h
    · obtain rfl := Option.some.inj h
      exact drop_accounted ha htasks rfl rfl rfl rfl (fun u hu => hu) rfl
    · obtain rfl := Option.some.inj h
      refine drop_accounted ha htasks rfl rfl rfl rfl ?_ rfl
      exact fun u hu => List.mem_cons_of_mem _ hu
  · rename_i rest htasks
    obtain rfl := Option.some.inj h
    simp only [keepsBeats, htasks, Bool.or_eq_true, Bool.and_eq_true, Bool.not_eq_true', or_assoc]
      at hcond
    apply proposerScheduleNext_accounted
    · exact hcond
    · exact drop_accounted ha htasks rfl rfl rfl rfl (fun u hu => hu) rfl
  · rename_i rest htasks
    obtain rfl := Option.some.inj h
    exact drop_accounted ha htasks rfl rfl rfl rfl (fun u hu => hu) rfl
  · rename_i rest htasks
    obtain rfl := Option.some.inj h
    exact drop_accounted ha htasks rfl rfl rfl rfl (fun u hu => hu) rfl
  · rename_i blk rest htasks
    obtain rfl := Option.some.inj h
    exact drop_accounted ha htasks rfl rfl rfl rfl (fun u hu => hu) rfl
  · rename_i rest htasks
    obtain rfl := Option.some.inj h
    exact drop_accounted ha htasks rfl rfl rfl rfl (fun u hu => hu) rfl
  · rename_i first rest htasks
    obtain rfl := Option.some.inj h
    refine drop_accounted ha htasks rfl rfl rfl rfl ?_ rfl
    exact fun u hu => mem_ite_cons _ _ hu

theorem step_accounted {e : Event H} (ha : s.Accounted pm) (hstays : s.stays e = true)
    (hcond : s.keepsBeats e = true) (h : s.step e = some s') : s'.Accounted pm := by
  cases e with
  | impeach =>
    simp only [step, Option.ite_none_right_eq_some, Option.some.injEq] at h
    obtain ⟨_, rfl⟩ := h
    have hrot : s.rotating = true := hstays
    unfold impeach
    rw [if_pos hrot]
    exact ha
  | expire =>
    simp only [step, Option.ite_none_right_eq_some] at h
    obtain ⟨_, h⟩ := h
    split at h
    · cases h
    · obtain rfl := Option.some.inj h
      have htimer : s.Retains { s with timer := none } := .of_eq rfl rfl rfl rfl fun t ht _ => ht
      exact (htimer.trans (onExpTimeout_retains _)).accounted ha
    · rename_i htimer
      simp [stays, htimer] at hstays
  | consensus blk =>
    simp only [step, Option.ite_none_right_eq_some, Option.some.injEq] at h
    obtain ⟨_, rfl⟩ := h
    simp only [stays, decide_eq_true_eq] at hstays
    unfold onConsensus
    dsimp only
    rw [if_neg hstays]
    exact accounted_of_eq ha rfl rfl rfl rfl fun t ht _ => ht
  | received rid blk =>
    simp only [step, Option.ite_none_right_eq_some, Option.some.injEq] at h
    obtain ⟨_, rfl⟩ := h
    exact (onReceiveProposal_retains rid blk).accounted ha
  | proposed blk =>
    simp only [step, Option.ite_none_right_eq_some, Option.some.injEq] at h
    obtain ⟨_, rfl⟩ := h
    exact (onPropose_retains blk).accounted ha
  | majority blk =>
    simp only [step, Option.ite_none_right_eq_some, Option.some.injEq] at h
    obtain ⟨_, rfl⟩ := h
    exact accounted_of_eq ha rfl rfl rfl rfl fun t ht _ => ht
  | qcFinish blk =>
    simp only [step, Option.ite_none_right_eq_some, Option.some.injEq] at h
    obtain ⟨_, rfl⟩ := h
    exact onQcFinish_accounted ha
  | beat =>
    simp only [step, Option.ite_none_right_eq_some, Option.some.injEq] at h
    obtain ⟨_, rfl⟩ := h
    exact beat_retains.accounted ha
  | propose =>
    simp only [step, Option.ite_none_right_eq_some, Option.some.injEq] at h
    obtain ⟨_, rfl⟩ := h
    exact accounted_of_eq ha rfl rfl rfl rfl fun t ht _ => List.mem_cons_of_mem _ ht
  | returns blk =>
    simp only [step] at h
    split at h
    · rename_i x rest htasks
      obtain rfl := Option.some.inj h
      simp only [keepsBeats, htasks, Bool.or_eq_true, decide_eq_true_eq, Bool.not_eq_true'] at hcond
      apply (doNewConsensus_retains ?_).accounted
      · exact drop_accounted ha htasks rfl rfl rfl rfl (fun u hu => hu) rfl
      · exact hcond
    · rename_i rest htasks
      obtain rfl := Option.some.inj h
      exact drop_accounted ha htasks rfl rfl rfl rfl (fun u hu => hu) rfl
    · cases h
  | throws =>
    simp only [step] at h
    split at h
    · obtain rfl := Option.some.inj h
      simp only [keepsBeats, Bool.not_eq_true', List.any_eq_false] at hcond
      refine accounted_of_eq ha rfl rfl rfl rfl ?_
      exact fun t ht hbeat => absurd hbeat (hcond t ht)
    · cases h
  | tcall waiting =>
    simp only [step, Option.ite_none_right_eq_some, Bool.and_eq_true, Option.some.injEq] at h
    obtain ⟨⟨hnil, _⟩, rfl⟩ := h
    rw [List.isEmpty_iff] at hnil
    refine accounted_of_eq ha rfl rfl rfl rfl ?_
    intro t ht
    rw [hnil] at ht
    cases ht
  | run => exact runTask_accounted ha hcond h

theorem runTask_beats (h : s.runTask = some s') : s'.beats = s.beats := by
  unfold runTask at h
  split at h
  · cases h
  · cases h
  · obtain rfl := Option.some.inj h
    rfl
  · split at h
    · obtain rfl := Option.some.inj h
      rfl
    · obtain rfl := Option.some.inj h
      rfl
  · obtain rfl := Option.some.inj h
    exact (proposerScheduleNext_keeps _).beats
  · obtain rfl := Option.some.inj h
    rfl
  · obtain rfl := Option.some.inj h
    rfl
  · obtain rfl := Option.some.inj h
    rfl
  · obtain rfl := Option.some.inj h
    rfl
  · obtain rfl := Option.some.inj h
    rfl

/-- Only a call of `beat` returns a new promise, and that one is accounted for. -/
theorem step_beats {e : Event H} (h : s.step e = some s') (hstays : s.stays e = true)
    (hold : s.beats ≤ pm) (hlt : pm < s'.beats) : s'.Accounted pm := by
  have hnone (heq : s'.beats = s.beats) : s'.Accounted pm := by omega
  cases e with
  | impeach =>
    simp only [step, Option.ite_none_right_eq_some, Option.some.injEq] at h
    obtain ⟨_, rfl⟩ := h
    have hrot : s.rotating = true := hstays
    apply hnone
    unfold impeach
    rw [if_pos hrot]
  | expire =>
    simp only [step, Option.ite_none_right_eq_some] at h
    obtain ⟨_, h⟩ := h
    split at h
    · cases h
    · obtain rfl := Option.some.inj h
      apply hnone
      unfold onExpTimeout
      split
      · rfl
      · rfl
    · rename_i htimer
      simp [stays, htimer] at hstays
  | consensus blk =>
    simp only [step, Option.ite_none_right_eq_some, Option.some.injEq] at h
    obtain ⟨_, rfl⟩ := h
    simp only [stays, decide_eq_true_eq] at hstays
    apply hnone
    unfold onConsensus
    dsimp only
    rw [if_neg hstays]
  | received rid blk =>
    simp only [step, Option.ite_none_right_eq_some, Option.some.injEq] at h
    obtain ⟨_, rfl⟩ := h
    exact hnone (onReceiveProposal_keeps s rid blk).beats
  | proposed blk =>
    simp only [step, Option.ite_none_right_eq_some, Option.some.injEq] at h
    obtain ⟨_, rfl⟩ := h
    exact hnone (onPropose_keeps s blk).beats
  | majority blk =>
    simp only [step, Option.ite_none_right_eq_some, Option.some.injEq] at h
    obtain ⟨_, rfl⟩ := h
    exact hnone rfl
  | qcFinish blk =>
    simp only [step, Option.ite_none_right_eq_some, Option.some.injEq] at h
    obtain ⟨_, rfl⟩ := h
    exact hnone (onQcFinish_keeps s blk).beats
  | beat =>
    simp only [step, Option.ite_none_right_eq_some, Option.some.injEq] at h
    obtain ⟨_, rfl⟩ := h
    have hsucc : s.beat.beats = s.beats + 1 := by
      unfold beat
      split
      · rfl
      · rfl
    obtain rfl : pm = s.beats := by omega
    exact beat_accounted
  | propose =>
    simp only [step, Option.ite_none_right_eq_some, Option.some.injEq] at h
    obtain ⟨_, rfl⟩ := h
    exact hnone rfl
  | returns blk =>
    simp only [step] at h
    split at h
    · obtain rfl := Option.some.inj h
      exact hnone (doNewConsensus_keeps _ _ blk).beats
    · obtain rfl := Option.some.inj h
      exact hnone rfl
    · cases h
  | throws =>
    simp only [step] at h
    split at h
    · obtain rfl := Option.some.inj h
      exact hnone rfl
    · cases h
  | tcall waiting =>
    simp only [step, Option.ite_none_right_eq_some, Option.some.injEq] at h
    obtain ⟨_, rfl⟩ := h
    exact hnone rfl
  | run => exact hnone (runTask_beats h)

/-- The promises of `beat` that were returned, or accounted for, since the run has begun: between
two handlers each one that is not resolved is in `pending_beats` or captured by the callback of the
pending promise `pm_qc_finish`. -/
theorem beats_kept
    (h : Transition.Reaches step (fun s e => s.stays e = true ∧ s.keepsBeats e = true) s₀ s)
    (hpm : s₀.beats ≤ pm ∨ s₀.Accounted pm) (hlt : pm < s.beats) (hidle : s.tasks = [])
    (hunsettled : pm ∉ s.resolvedBeats) : pm ∈ s.pendingBeats ∨ s.Captured pm := by
  have hinv : s.beats ≤ pm ∨ s.Accounted pm := by
    apply h.invariant hpm
    intro s e s' hs hc hstep
    by_cases hold : s.beats ≤ pm
    · by_cases hnew : s'.beats ≤ pm
      · exact Or.inl hnew
      · exact Or.inr (step_beats hstep hc.1 hold (Nat.lt_of_not_le hnew))
    · exact Or.inr (step_accounted (hs.resolve_left hold) hc.1 hc.2 hstep)
  obtain hres | hpend | hcap | htask := hinv.resolve_left (Nat.not_le_of_lt hlt)
  · exact absurd hres hunsettled
  · exact Or.inl hpend
  · exact Or.inr hcap
  · rw [hidle] at htask
    cases htask

/-- The first beat proposes block 1, the second one waits for the votes on it. -/
theorem beats_kept_waiting : ∃ s : PMRoundRobin Nat, s.tasks = [] ∧ s.beats = 2 ∧
    s.resolvedBeats = [0] ∧ (1 ∈ s.pendingBeats ∨ s.Captured 1) := by
  let seen (s : PMRoundRobin Nat) := (s.tasks, s.beats, s.resolvedBeats)
  have hrun : (Transition.runBy step (fun s e => s.stays e = true ∧ s.keepsBeats e = true)
      (init 0 4 (0 : Nat))
      [.beat, .run, .run, .run, .run, .received 0 1, .proposed 1, .run, .run, .returns 1,
        .beat, .run, .run, .run]).map seen = some ([], 2, [0]) := by
    decide
  obtain ⟨s, hreach, hseen⟩ := Transition.runBy_map_reaches hrun
  simp only [seen, Prod.mk.injEq] at hseen
  obtain ⟨hidle, hbeats, hres⟩ := hseen
  refine ⟨s, hidle, hbeats, hres, beats_kept hreach (Or.inl (Nat.zero_le _)) ?_ hidle ?_⟩
  · rw [hbeats]
    decide
  · rw [hres]
    decide

/-- Replica 1 is elected by the commit of its block 7. -/
def elected : List (Event Nat) :=
  [.impeach, .expire, .received 1 7, .proposed 7, .returns 7, .run,
    .majority 7, .qcFinish 7, .run, .received 1 8, .proposed 8, .returns 8, .run,
    .majority 8, .qcFinish 8, .run, .received 1 9, .proposed 9, .returns 9, .run,
    .majority 9, .qcFinish 9, .run, .consensus 7, .received 1 10, .proposed 10, .run, .run,
    .returns 10, .run]

/-- The promise for block 10 has the callback of a beat when the waiting commands are proposed again
and `do_new_consensus` rejects it. -/
theorem beat_dropped : ∃ s₀ s : PMRoundRobin Nat,
    Transition.Reaches step (fun _ _ => True) (init 1 4 0) s₀ ∧
    Transition.Reaches step (fun s e => s.stays e = true) s₀ s ∧ s.tasks = [] ∧ s₀.beats ≤ 0 ∧
    0 < s.beats ∧ 0 ∉ s.resolvedBeats ∧ ¬ (0 ∈ s.pendingBeats ∨ s.Captured 0) := by
  let rest : List (Event Nat) :=
    [.beat, .run, .run, .run, .tcall true, .received 1 11, .proposed 11, .run, .run, .returns 11]
  let seen (s : PMRoundRobin Nat) :=
    (s.tasks, s.beats, s.resolvedBeats ++ s.pendingBeats, s.isPending s.pmQcFinish)
  have hrun : ((Transition.runBy step (fun _ _ => True) (init 1 4 (0 : Nat)) elected).bind fun s₀ =>
      (Transition.runBy step (fun s e => s.stays e = true) s₀ rest).map fun s =>
        (s₀.beats, seen s)) = some (0, [], 1, [], false) := by
    decide
  obtain ⟨s₀, hs₀, hrest⟩ := Option.bind_eq_some_iff.mp hrun
  obtain ⟨s, hreach, hseen⟩ := Transition.runBy_map_reaches hrest
  simp only [seen, Prod.mk.injEq] at hseen
  obtain ⟨hbeats₀, hidle, hbeats, hlists, hfinish⟩ := hseen
  obtain ⟨hres, hpending⟩ := List.append_eq_nil_iff.mp hlists
  refine ⟨s₀, s, Transition.runBy_reaches hs₀, hreach, hidle, Nat.le_of_eq hbeats₀, ?_, ?_, ?_⟩
  · rw [hbeats]
    decide
  · rw [hres]
    exact List.not_mem_nil
  · rw [hpending]
    intro h
    have hcap : s.Captured 0 := h.resolve_left List.not_mem_nil
    rw [hcap.isPending] at hfinish
    cases hfinish

end LibHotStuff.PMRoundRobin
