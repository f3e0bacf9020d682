import LibHotStuff.Model.PaceMakerDummy

/-! The order in which `PMWaitQC` lets its beats propose. -/

namespace LibHotStuff

namespace WaitTask

variable {H : Type}

/-- It goes on with a beat at once. -/
def urgent : WaitTask H → Bool
  | resolve _ => true
  | propose _ => true
  | _ => false

/-- The caller of `beat` is about to give the promise its callback. -/
def giving : WaitTask H → Bool
  | thenBeat _ => true
  | _ => false

end WaitTask

namespace PMWaitQC

variable {H : Type} {s s' s'' : PMWaitQC H} {k : Nat} {rest : List (WaitTask H)}

/-- The first beat that has not been taken out of `pending_beats`. -/
def nextBeat (s : PMWaitQC H) : Nat := s.beats - s.pendingBeats.length

/-- Beats are taken in order, and only the one that has been taken last may still propose. -/
structure Orderly (s : PMWaitQC H) : Prop where
  queued : s.pendingBeats = List.range' s.nextBeat s.pendingBeats.length
  length : s.pendingBeats.length ≤ s.beats
  resolved : ∀ b ∈ s.resolvedBeats, b < s.nextBeat
  given : ∀ b ∈ s.thenBeats, b < s.beats
  held : ∀ pm b, s.promises.Holds pm b →
    b + 1 = s.nextBeat ∧ b ∉ s.resolvedBeats ∧ s.pmQcFinish = some pm
  single : ∀ p ∈ s.promises, ∀ ks, p.state = .pending ks → ks.length ≤ 1
  resolving : ∀ b, .resolve b ∈ s.tasks →
    b + 1 = s.nextBeat ∧ b ∉ s.resolvedBeats ∧ ∀ pm b', ¬ s.promises.Holds pm b'
  proposing : ∀ b, .propose b ∈ s.tasks →
    b + 1 = s.nextBeat ∧ b ∈ s.resolvedBeats ∧ b ∈ s.thenBeats
  giving : ∀ b, .thenBeat b ∈ s.tasks → b + 1 = s.beats ∧ b ∉ s.thenBeats
  once : (s.tasks.filter WaitTask.giving).length ≤ 1
  calm : ∀ t ∈ s.tasks.tail, t.urgent = false

/-- A beat that has been taken may still propose. -/
def Alive (s : PMWaitQC H) : Prop :=
  (∃ pm b, s.promises.Holds pm b) ∨ (∃ b, .resolve b ∈ s.tasks) ∨ (∃ b, .propose b ∈ s.tasks) ∨
    ∃ b, .thenBeat b ∈ s.tasks ∧ b ∈ s.resolvedBeats

/-- What the pacemaker does keeps its beats in order: none comes back, or a later one is taken. -/
structure Goes (s s' : PMWaitQC H) : Prop where
  orderly : s'.Orderly
  next : s'.nextBeat = s.nextBeat ∧ (s'.Alive → s.Alive) ∨ s.nextBeat < s'.nextBeat

theorem Goes.refl (h : s.Orderly) : s.Goes s := ⟨h, Or.inl ⟨rfl, fun ha => ha⟩⟩

theorem nextBeat_le (s : PMWaitQC H) : s.nextBeat ≤ s.beats := Nat.sub_le _ _

namespace Orderly

/-- Only the task that runs may be urgent. -/
theorem calm_rest (h : s.Orderly) {t : WaitTask H} (htasks : s.tasks = t :: rest) :
    ∀ t ∈ rest, t.urgent = false := by
  have hcalm := h.calm
  rwa [htasks] at hcalm

/-- Other tasks, of which the urgent ones and those that give a callback were there before. -/
theorem with_tasks (h : s.Orderly) (new : List (WaitTask H))
    (hnew : ∀ t ∈ new, t.urgent = false ∧ t.giving = false) (hsub : rest.Sublist s.tasks)
    (hcalm : ∀ t ∈ (new ++ rest).tail, t.urgent = false) :
    s.Goes { s with tasks := new ++ rest } := by
  have hold {t : WaitTask H} (ht : t ∈ new ++ rest) (hkind : t.urgent = true ∨ t.giving = true) :
      t ∈ s.tasks := by
    obtain hmem | hmem := List.mem_append.mp ht
    · obtain ⟨hu, hg⟩ := hnew t hmem
      rw [hu, hg] at hkind
      exact hkind.elim nofun nofun
    · exact hsub.subset hmem
  refine ⟨?_, Or.inl ⟨rfl, ?_⟩⟩
  · refine { h with
      resolving := fun b hb => h.resolving b (hold hb (Or.inl rfl))
      proposing := fun b hb => h.proposing b (hold hb (Or.inl rfl))
      giving := fun b hb => h.giving b (hold hb (Or.inr rfl))
      once := ?_, calm := hcalm }
    have hnone : new.filter WaitTask.giving = [] := by
      rw [List.filter_eq_nil_iff]
      intro t ht
      rw [(hnew t ht).2]
      exact Bool.false_ne_true
    rw [List.filter_append, hnone, List.nil_append]
    exact (hsub.filter _).length_le.trans h.once
  · rintro (hheld | ⟨b, hb⟩ | ⟨b, hb⟩ | ⟨b, hb, hres⟩)
    · exact Or.inl hheld
    · exact Or.inr (Or.inl ⟨b, hold hb (Or.inl rfl)⟩)
    · exact Or.inr (Or.inr (Or.inl ⟨b, hold hb (Or.inl rfl)⟩))
    · exact Or.inr (Or.inr (Or.inr ⟨b, hold hb (Or.inr rfl), hres⟩))

/-- The task that runs is done. -/
theorem pop (h : s.Orderly) {t : WaitTask H} (htasks : s.tasks = t :: rest) :
    s.Goes { s with tasks := rest } :=
  h.with_tasks [] nofun (htasks ▸ List.sublist_cons_self t rest)
    fun t ht => h.calm_rest htasks t (List.mem_of_mem_tail ht)

/-- An exception unwinds the functions. -/
theorem unwind (h : s.Orderly) : s.Goes { s with tasks := [] } :=
  h.with_tasks [] nofun (List.nil_sublist _) nofun

/-- What the core tells or the functions write that has nothing to do with the beats. -/
theorem with_fields (h : s.Orderly) (lastProposed : H) (locked waitPropose : Bool)
    (voted : H → Bool) (qcWaiting : H → Option Nat) :
    s.Goes { s with
      lastProposed := lastProposed, locked := locked, pmWaitPropose := waitPropose, voted := voted
      qcWaiting := qcWaiting } :=
  ⟨{ h with }, Or.inl ⟨rfl, fun ha => ha⟩⟩

end Orderly

theorem Goes.trans (h : s.Goes s') (h' : s'.Goes s'') : s.Goes s'' := by
  refine ⟨h'.orderly, ?_⟩
  obtain ⟨hn, ha⟩ | hlt := h.next
  · obtain ⟨hn', ha'⟩ | hlt' := h'.next
    · exact Or.inl ⟨hn'.trans hn, fun x => ha (ha' x)⟩
    · exact Or.inr (hn ▸ hlt')
  · obtain ⟨hn', _⟩ | hlt' := h'.next
    · exact Or.inr (hn' ▸ hlt)
    · exact Or.inr (hlt.trans hlt')

/-- All beats that have proposed come before the beat `m`, and those that may still propose do
not. -/
structure Spent (s : PMWaitQC H) (m : Nat) : Prop where
  le : m ≤ s.nextBeat
  alive : s.Alive → m < s.nextBeat

theorem Goes.spent {m : Nat} (h : s.Goes s') (hm : s.Spent m) : s'.Spent m := by
  have hle := hm.le
  obtain ⟨hn, ha⟩ | hlt := h.next
  · exact ⟨hn ▸ hle, fun halive => hn ▸ hm.alive (ha halive)⟩
  · exact ⟨hle.trans (Nat.le_of_lt hlt), fun _ => Nat.lt_of_le_of_lt hle hlt⟩

namespace Orderly

/-- A beat proposes; no other one may. -/
theorem propose (h : s.Orderly) (htasks : s.tasks = .propose k :: rest) (blk : H) (below : Nat) :
    s.Goes { s with tasks := .proposing blk below :: rest } ∧
      ¬ Alive { s with tasks := .proposing blk below :: rest } ∧ k + 1 = s.nextBeat := by
  have hmem : .propose k ∈ s.tasks := by
    rw [htasks]
    exact List.mem_cons_self
  obtain ⟨hnext, hres, hgiven⟩ := h.proposing k hmem
  have hrest := h.calm_rest htasks
  have hgoes : s.Goes { s with tasks := [.proposing blk below] ++ rest } := by
    refine h.with_tasks _ (fun t ht => ?_) (htasks ▸ List.sublist_cons_self _ rest) hrest
    rw [List.mem_singleton.mp ht]
    exact ⟨rfl, rfl⟩
  refine ⟨hgoes, ?_, hnext⟩
  rintro (⟨pm, b, hb⟩ | ⟨b, hb⟩ | ⟨b, hb⟩ | ⟨b, hb, hbres⟩)
  · obtain ⟨hlast, hnot, _⟩ := h.held pm b hb
    obtain rfl : b = k := by omega
    exact hnot hres
  · obtain hb | hb := List.mem_cons.mp hb
    · cases hb
    · exact Bool.noConfusion (hrest _ hb)
  · obtain hb | hb := List.mem_cons.mp hb
    · cases hb
    · exact Bool.noConfusion (hrest _ hb)
  · obtain hb | hb := List.mem_cons.mp hb
    · cases hb
    · obtain ⟨hlast, hnot⟩ := h.giving b (htasks ▸ List.mem_cons_of_mem _ hb)
      have hlt := h.resolved b hbres
      have hle := s.nextBeat_le
      obtain rfl : b = k := by omega
      exact hnot hgiven

theorem fire {m : Nat} (h : s.Orderly) (htasks : s.tasks = .propose k :: rest) (blk : H)
    (below : Nat) (hm : s.Spent m) :
    m ≤ k ∧ Spent { s with tasks := .proposing blk below :: rest } (k + 1) := by
  obtain ⟨_, hdead, hnext⟩ := h.propose htasks blk below
  have halive : s.Alive := by
    refine Or.inr (Or.inr (Or.inl ⟨k, ?_⟩))
    rw [htasks]
    exact List.mem_cons_self
  have hlt := hm.alive halive
  refine ⟨by omega, ?_, fun ha => absurd ha hdead⟩
  exact Nat.le_of_eq hnext

/-- `beat` adds the next number at the end. -/
theorem beat (h : s.Orderly) (hidle : s.tasks = []) : s.Goes s.beat := by
  have hlen := h.length
  have hle := s.nextBeat_le
  have hnext : s.beat.nextBeat = s.nextBeat := by
    simp only [nextBeat, PMWaitQC.beat, List.length_append, List.length_singleton]
    omega
  refine ⟨?_, Or.inl ⟨hnext, ?_⟩⟩
  · constructor
    · rw [hnext]
      have hq := h.queued
      simp only [PMWaitQC.beat, List.length_append, List.length_singleton, List.range'_concat]
      rw [← hq, Nat.one_mul, nextBeat, Nat.sub_add_cancel hlen]
    · simp only [PMWaitQC.beat, List.length_append, List.length_singleton]
      omega
    · rw [hnext]
      exact h.resolved
    · exact fun b hb => Nat.lt_succ_of_lt (h.given b hb)
    · rw [hnext]
      exact h.held
    · exact h.single
    · intro b hb
      simp [PMWaitQC.beat, hidle] at hb
    · intro b hb
      simp [PMWaitQC.beat, hidle] at hb
    · intro b hb
      obtain rfl : b = s.beats := by simpa [PMWaitQC.beat, hidle] using hb
      exact ⟨rfl, fun hmem => Nat.lt_irrefl _ (h.given s.beats hmem)⟩
    · rw [PMWaitQC.beat, hidle]
      exact Nat.le_refl 1
    · intro t ht
      obtain rfl : t = .thenBeat s.beats := by simpa [PMWaitQC.beat, hidle] using ht
      rfl
  · rintro (hheld | ⟨b, hb⟩ | ⟨b, hb⟩ | ⟨b, hb, hres⟩)
    · exact Or.inl hheld
    · simp [PMWaitQC.beat, hidle] at hb
    · simp [PMWaitQC.beat, hidle] at hb
    · obtain rfl : b = s.beats := by simpa [PMWaitQC.beat, hidle] using hb
      have hlt := h.resolved s.beats hres
      omega

/-- The callback that the core runs for an own block. -/
theorem onPropose_ (h : s.Orderly) (hcalm : ∀ t ∈ s.tasks, t.urgent = false) (blk : H) :
    s.Goes (s.onPropose_ blk) := by
  unfold PMWaitQC.onPropose_
  split
  · have hfields := h.with_fields blk false false s.voted s.qcWaiting
    refine hfields.trans (hfields.orderly.with_tasks [.scheduleNext, .updateLastProposed]
      ?_ (List.Sublist.refl _) ?_)
    · simp [WaitTask.urgent, WaitTask.giving]
    · intro t ht
      obtain rfl | ht := List.mem_cons.mp ht
      · rfl
      · exact hcalm t ht
  · exact .refl h

/-- A promise is settled, or one without callbacks is made. -/
theorem with_promises (h : s.Orderly) {promises : Promises H Nat Unit}
    (hheld : ∀ pm b, promises.Holds pm b → s.promises.Holds pm b)
    (hsingle : ∀ p ∈ promises, ∀ ks, p.state = .pending ks → ks.length ≤ 1) :
    s.Goes { s with promises := promises } := by
  refine ⟨?_, Or.inl ⟨rfl, ?_⟩⟩
  · exact { h with
      held := fun pm b hb => h.held pm b (hheld pm b hb)
      single := hsingle
      resolving := fun b hb => by
        obtain ⟨hlast, hnot, hfree⟩ := h.resolving b hb
        exact ⟨hlast, hnot, fun pm b' hb' => hfree pm b' (hheld pm b' hb')⟩ }
  · rintro (⟨pm, b, hb⟩ | hrest)
    · exact Or.inl ⟨pm, b, hheld pm b hb⟩
    · exact Or.inr hrest

/-- The beat that has been taken last is resolved when no promise holds it any more. -/
theorem resolve (h : s.Orderly) (hcalm : ∀ t ∈ s.tasks, t.urgent = false) (hlast : k + 1 = s.nextBeat)
    (hnot : k ∉ s.resolvedBeats) (hfree : ∀ pm b, ¬ s.promises.Holds pm b) :
    Orderly { s with tasks := .resolve k :: s.tasks } where
  queued := h.queued
  length := h.length
  resolved := h.resolved
  given := h.given
  held := h.held
  single := h.single
  resolving := by
    intro b hb
    obtain heq | hb := List.mem_cons.mp hb
    · obtain rfl := WaitTask.resolve.inj heq
      exact ⟨hlast, hnot, hfree⟩
    · exact Bool.noConfusion (hcalm _ hb)
  proposing := by
    intro b hb
    obtain heq | hb := List.mem_cons.mp hb
    · cases heq
    · exact Bool.noConfusion (hcalm _ hb)
  giving := by
    intro b hb
    obtain heq | hb := List.mem_cons.mp hb
    · cases heq
    · exact h.giving b hb
  once := h.once
  calm := hcalm

/-- A settled promise holds nothing. -/
theorem single_set (h : s.Orderly) {pm : Nat} {p : Promise H Nat Unit}
    (hp : ∀ ks, p.state = .pending ks → ks.length ≤ 1) :
    ∀ q ∈ s.promises.set pm p, ∀ ks, q.state = .pending ks → ks.length ≤ 1 := by
  intro q hq
  obtain hq | rfl := List.mem_or_eq_of_mem_set hq
  · exact h.single q hq
  · exact hp

variable [DecidableEq H]

omit [DecidableEq H] in
/-- `on_qc_finish` calls what the promise holds. -/
theorem onQcFinish (h : s.Orderly) (hcalm : ∀ t ∈ s.tasks, t.urgent = false) (blk : H) :
    s.Goes (s.onQcFinish blk) := by
  have herase {s : PMWaitQC H} (h : s.Orderly) (hcalm : ∀ t ∈ s.tasks, t.urgent = false) :
      s.Goes { s with tasks := [.eraseQcWaiting blk] ++ s.tasks } :=
    h.with_tasks _ (by simp [WaitTask.urgent, WaitTask.giving]) (List.Sublist.refl _) hcalm
  unfold PMWaitQC.onQcFinish
  split
  · exact .refl h
  rename_i pm _
  obtain hres | ⟨g, ks, hp, hres⟩ := s.promises.resolve_cases pm ()
  · rw [hres]
    exact herase h hcalm
  have hheld {i b : Nat} (hb : Promises.Holds (s.promises.set pm ⟨g, .fulfilled ()⟩) i b) :
      s.promises.Holds i b ∧ i ≠ pm := Promises.holds_set (by simp) hb
  have hset : s.Goes { s with promises := s.promises.set pm ⟨g, .fulfilled ()⟩ } :=
    h.with_promises (fun i b hb => (hheld hb).1) (h.single_set (by simp))
  have hsingle := h.single _ (List.mem_of_getElem? hp) ks rfl
  rw [hres]
  match ks, hsingle with
  | [], _ => exact hset.trans (herase hset.orderly hcalm)
  | [b], _ =>
    obtain ⟨hlast, hnot, hcur⟩ := h.held pm b ⟨g, [b], hp, List.mem_singleton_self b⟩
    have hgoes := hset.trans (herase hset.orderly hcalm)
    refine ⟨hgoes.orderly.resolve ?_ hlast hnot ?_, Or.inl ⟨rfl, fun _ => ?_⟩⟩
    · intro t ht
      obtain rfl | ht := List.mem_cons.mp ht
      · rfl
      · exact hcalm t ht
    · intro i b' hb'
      obtain ⟨hb', hi⟩ := hheld hb'
      obtain ⟨_, _, hcur'⟩ := h.held i b' hb'
      rw [hcur] at hcur'
      exact hi (Option.some.inj hcur').symm
    · exact Or.inl ⟨pm, b, g, [b], hp, List.mem_singleton_self b⟩

/-- `async_qc_finish` touches nothing else. -/
theorem asyncQcFinish_eq (s : PMWaitQC H) (blk : H) : ∃ promises qcWaiting,
    (s.asyncQcFinish blk).2 = { s with promises := promises, qcWaiting := qcWaiting } := by
  unfold PMWaitQC.asyncQcFinish
  split
  · exact ⟨_, _, rfl⟩
  · split <;> exact ⟨_, _, rfl⟩

/-- A promise that `async_qc_finish` makes holds nothing. -/
theorem asyncQcFinish (h : s.Orderly) (blk : H) : s.Goes (s.asyncQcFinish blk).2 ∧
    ∀ pm b, (s.asyncQcFinish blk).2.promises.Holds pm b → s.promises.Holds pm b := by
  have hnew {p : Promise H Nat Unit} (hp : ∀ ks, p.state = .pending ks → ks = []) :
      s.Goes { s with promises := s.promises ++ [p] } ∧
        ∀ pm b, Promises.Holds (s.promises ++ [p]) pm b → s.promises.Holds pm b := by
    have hheld (pm b : Nat) (hb : Promises.Holds (s.promises ++ [p]) pm b) : s.promises.Holds pm b := by
      obtain hb | ⟨_, ks, hks, hmem⟩ := Promises.holds_append hb
      · exact hb
      · rw [hp ks hks] at hmem
        cases hmem
    refine ⟨h.with_promises hheld fun q hq ks hks => ?_, hheld⟩
    obtain hq | hq := List.mem_append.mp hq
    · exact h.single q hq ks hks
    · rw [List.mem_singleton.mp hq] at hks
      rw [hp ks hks]
      exact Nat.zero_le 1
  unfold PMWaitQC.asyncQcFinish
  split
  · exact hnew (by simp)
  · split
    · exact ⟨.refl h, fun _ _ hb => hb⟩
    · rename_i hnone
      obtain ⟨hgoes, hheld⟩ := hnew (p := ⟨blk, .pending []⟩) (by simp)
      exact ⟨hgoes.trans (hgoes.orderly.with_fields _ _ _ _ _), hheld⟩

omit [DecidableEq H] in
/-- The next beat is taken; the promise that held the one before is rejected. -/
theorem take (h : s.Orderly) (hcalm : ∀ t ∈ s.tasks, t.urgent = false) {later : List Nat}
    (hpend : s.pendingBeats = k :: later) {promises : Promises H Nat Unit}
    (hpromises : promises = s.pmQcFinish.elim s.promises s.promises.reject) :
    Orderly { s with pendingBeats := later, promises := promises } ∧ k = s.nextBeat ∧
      nextBeat { s with pendingBeats := later, promises := promises } = s.nextBeat + 1 ∧
      ∀ pm b, ¬ promises.Holds pm b := by
  have hlen := h.length
  have hq := h.queued
  rw [hpend, List.length_cons] at hlen
  rw [hpend, List.length_cons, List.range'_succ] at hq
  obtain ⟨hk, hlater⟩ := List.cons.inj hq
  have hnext : nextBeat { s with pendingBeats := later, promises := promises } = s.nextBeat + 1 := by
    simp only [nextBeat, hpend, List.length_cons]
    omega
  have hfree (pm b : Nat) : ¬ promises.Holds pm b := by
    intro hb
    rw [hpromises] at hb
    cases hcur : s.pmQcFinish with
    | none =>
      rw [hcur] at hb
      obtain ⟨_, _, hpm⟩ := h.held pm b hb
      rw [hcur] at hpm
      cases hpm
    | some cur =>
      rw [hcur] at hb
      obtain ⟨hb, hne⟩ := Promises.holds_reject hb
      obtain ⟨_, _, hpm⟩ := h.held pm b hb
      rw [hcur] at hpm
      exact hne (Option.some.inj hpm).symm
  refine ⟨?_, hk, hnext, hfree⟩
  refine { h with
    queued := ?_, length := Nat.le_of_succ_le hlen, resolved := fun b hb => ?_
    held := fun pm b hb => absurd hb (hfree pm b), single := ?_
    resolving := fun b hb => Bool.noConfusion (hcalm _ hb)
    proposing := fun b hb => Bool.noConfusion (hcalm _ hb) }
  · rw [hnext]
    exact hlater
  · rw [hnext]
    exact Nat.lt_succ_of_lt (h.resolved b hb)
  · rw [hpromises]
    cases s.pmQcFinish with
    | none => exact h.single
    | some cur =>
      change ∀ p ∈ s.promises.reject cur, _
      unfold Promises.reject
      split
      · exact h.single_set (by simp)
      · exact h.single

theorem scheduleNext (h : s.Orderly) (hcalm : ∀ t ∈ s.tasks, t.urgent = false) :
    s.Goes s.scheduleNext := by
  unfold PMWaitQC.scheduleNext
  split
  · exact .refl h
  rename_i k later hpend
  split
  · exact .refl h
  obtain ⟨htaken, hk, hnext, hfree⟩ := h.take hcalm hpend rfl
  obtain ⟨hasync, hheld⟩ := htaken.asyncQcFinish s.lastProposed
  obtain ⟨ps, w, heq⟩ := asyncQcFinish_eq
    { s with pendingBeats := later, promises := s.pmQcFinish.elim s.promises s.promises.reject }
    s.lastProposed
  dsimp only at heq
  rw [heq] at hasync hheld
  have hfree' (i b : Nat) : ¬ ps.Holds i b := fun hb => hfree i b (hheld i b hb)
  have hlast : k + 1 = s.nextBeat + 1 := congrArg Nat.succ hk
  have hnot : k ∉ s.resolvedBeats := fun hmem => by
    have hlt := h.resolved k hmem
    omega
  -- `pm_qc_finish` is the new promise, and holds nothing yet
  have hcur (pm : Nat) : Orderly { s with
      pendingBeats := later, promises := ps, qcWaiting := w, pmQcFinish := some pm
      tasks := [.lock] ++ s.tasks } := by
    have hlock := hasync.orderly.with_tasks [.lock]
      (by simp [WaitTask.urgent, WaitTask.giving]) (List.Sublist.refl _) hcalm
    exact { hlock.orderly with held := fun i b hb => absurd hb (hfree' i b) }
  have hmore {t : PMWaitQC H} (ho : t.Orderly) (hn : t.nextBeat = s.nextBeat + 1) : s.Goes t :=
    ⟨ho, Or.inr (hn ▸ Nat.lt_succ_self _)⟩
  dsimp only
  rw [heq]
  generalize (PMWaitQC.asyncQcFinish _ s.lastProposed).1 = pm
  obtain ⟨g, ks, hp, hsub⟩ | ⟨g, v, _, hsub⟩ | hsub := ps.subscribe_cases pm k
  · rw [hsub]
    refine hmore ?_ hnext
    have hnil : ks = [] := by
      rw [List.eq_nil_iff_forall_not_mem]
      exact fun b hb => hfree' pm b ⟨g, ks, hp, hb⟩
    refine { hcur pm with held := fun i b hb => ?_, single := ?_, resolving := fun b hb => ?_ }
    · have hb' : (ps.subscribe pm k).1.Holds i b := by
        rw [hsub]
        exact hb
      obtain hb' | ⟨rfl, rfl, _⟩ := Promises.holds_subscribe hb'
      · exact absurd hb' (hfree' i b)
      · exact ⟨hlast.trans hnext.symm, hnot, rfl⟩
    · apply (hcur pm).single_set
      intro ks' hks
      rw [← PromiseState.pending.inj hks, hnil]
      exact Nat.le_refl 1
    · obtain hb | hb := List.mem_cons.mp hb
      · cases hb
      · exact Bool.noConfusion (hcalm _ hb)
  · rw [hsub]
    exact hmore ((hcur pm).resolve (fun t ht => by
      obtain rfl | ht := List.mem_cons.mp ht
      · rfl
      · exact hcalm t ht) (hlast.trans hnext.symm) hnot hfree') hnext
  · rw [hsub]
    exact hmore (hcur pm) hnext

omit [DecidableEq H] in
theorem mem_onBeat {t : WaitTask H} (ht : t ∈ s.onBeat k) : t = .propose k := by
  unfold onBeat at ht
  split at ht
  · exact List.mem_singleton.mp ht
  · cases ht

omit [DecidableEq H] in
/-- The callback of a beat may be called first. -/
theorem calm_onBeat (hcalm : ∀ t ∈ rest, t.urgent = false) {p : Prop} [Decidable p] :
    ∀ t ∈ (if p then s.onBeat k ++ rest else rest).tail, t.urgent = false := by
  intro t ht
  have hsub : (if p then s.onBeat k ++ rest else rest).tail ⊆ rest := by
    split
    · unfold onBeat
      split
      · exact List.Subset.refl _
      · exact List.tail_subset _
    · exact List.tail_subset _
  exact hcalm t (hsub ht)

omit [DecidableEq H] in
theorem mem_onBeat_or {p : Prop} [Decidable p] {t : WaitTask H}
    (ht : t ∈ if p then s.onBeat k ++ rest else rest) : (p ∧ t = .propose k) ∨ t ∈ rest := by
  split at ht
  · rename_i hp
    obtain ht | ht := List.mem_append.mp ht
    · exact Or.inl ⟨hp, mem_onBeat ht⟩
    · exact Or.inr ht
  · exact Or.inr ht

omit [DecidableEq H] in
theorem once_rest {p : Prop} [Decidable p]
    (h : (rest.filter WaitTask.giving).length ≤ 1) :
    ((if p then s.onBeat k ++ rest else rest).filter WaitTask.giving).length ≤ 1 := by
  split
  · unfold onBeat
    split <;> exact h
  · exact h

omit [DecidableEq H] in
/-- The promise of a beat is resolved. -/
theorem runResolve (h : s.Orderly) (htasks : s.tasks = .resolve k :: rest) :
    s.Goes { s with
      resolvedBeats := k :: s.resolvedBeats
      tasks := if k ∈ s.thenBeats then s.onBeat k ++ rest else rest } := by
  have hmem : .resolve k ∈ s.tasks := by
    rw [htasks]
    exact List.mem_cons_self
  obtain ⟨hlast, _, hfree⟩ := h.resolving k hmem
  have hcalm := h.calm_rest htasks
  refine ⟨?_, Or.inl ⟨rfl, fun _ => Or.inr (Or.inl ⟨k, hmem⟩)⟩⟩
  refine { h with
    resolved := fun b hb => ?_, held := fun pm b hb => absurd hb (hfree pm b)
    resolving := fun b hb => ?_, proposing := fun b hb => ?_, giving := fun b hb => ?_
    once := once_rest ?_, calm := calm_onBeat hcalm }
  · obtain rfl | hb := List.mem_cons.mp hb
    · exact Nat.lt_of_succ_le (Nat.le_of_eq hlast)
    · exact h.resolved b hb
  · obtain ⟨_, heq⟩ | hb := mem_onBeat_or hb
    · cases heq
    · exact Bool.noConfusion (hcalm _ hb)
  · obtain ⟨hgiven, heq⟩ | hb := mem_onBeat_or hb
    · obtain rfl := WaitTask.propose.inj heq
      exact ⟨hlast, List.mem_cons_self, hgiven⟩
    · exact Bool.noConfusion (hcalm _ hb)
  · obtain ⟨_, heq⟩ | hb := mem_onBeat_or hb
    · cases heq
    · exact h.giving b (htasks ▸ List.mem_cons_of_mem _ hb)
  · have honce := h.once
    rw [htasks] at honce
    exact honce

omit [DecidableEq H] in
/-- The promise of a beat gets its callback. -/
theorem runThenBeat (h : s.Orderly) (htasks : s.tasks = .thenBeat k :: rest) :
    s.Goes { s with
      thenBeats := k :: s.thenBeats
      tasks := if k ∈ s.resolvedBeats then s.onBeat k ++ rest else rest } := by
  have hmem : .thenBeat k ∈ s.tasks := by
    rw [htasks]
    exact List.mem_cons_self
  obtain ⟨hnew, _⟩ := h.giving k hmem
  have hcalm := h.calm_rest htasks
  have hnone (b : Nat) : .thenBeat b ∉ rest := by
    intro hb
    have honce := h.once
    rw [htasks, List.filter_cons_of_pos rfl, List.length_cons] at honce
    have hpos : 0 < (rest.filter WaitTask.giving).length :=
      List.length_pos_of_mem (List.mem_filter.mpr ⟨hb, rfl⟩)
    omega
  refine ⟨?_, Or.inl ⟨rfl, ?_⟩⟩
  · refine { h with
      given := fun b hb => ?_, resolving := fun b hb => ?_, proposing := fun b hb => ?_
      giving := fun b hb => ?_, once := once_rest ?_, calm := calm_onBeat hcalm }
    · obtain rfl | hb := List.mem_cons.mp hb
      · exact Nat.lt_of_succ_le (Nat.le_of_eq hnew)
      · exact h.given b hb
    · obtain ⟨_, heq⟩ | hb := mem_onBeat_or hb
      · cases heq
      · exact Bool.noConfusion (hcalm _ hb)
    · obtain ⟨hres, heq⟩ | hb := mem_onBeat_or hb
      · obtain rfl := WaitTask.propose.inj heq
        have hlt := h.resolved b hres
        have hle := s.nextBeat_le
        refine ⟨?_, hres, List.mem_cons_self⟩
        change b + 1 = s.nextBeat
        omega
      · exact Bool.noConfusion (hcalm _ hb)
    · obtain ⟨_, heq⟩ | hb := mem_onBeat_or hb
      · cases heq
      · exact absurd hb (hnone b)
    · have honce := h.once
      rw [htasks, List.filter_cons_of_pos rfl, List.length_cons] at honce
      exact Nat.le_of_succ_le honce
  · rintro (hheld | ⟨b, hb⟩ | ⟨b, hb⟩ | ⟨b, hb, _⟩)
    · exact Or.inl hheld
    · obtain ⟨_, heq⟩ | hb := mem_onBeat_or hb
      · cases heq
      · exact Bool.noConfusion (hcalm _ hb)
    · obtain ⟨hres, _⟩ | hb := mem_onBeat_or hb
      · exact Or.inr (Or.inr (Or.inr ⟨k, hmem, hres⟩))
      · exact Bool.noConfusion (hcalm _ hb)
    · obtain ⟨_, heq⟩ | hb := mem_onBeat_or hb
      · cases heq
      · exact absurd hb (hnone b)

/-- The functions that run. -/
theorem runTask (h : s.Orderly) (hrun : s.runTask = some s') : s.Goes s' := by
  unfold PMWaitQC.runTask at hrun
  split at hrun
  · cases hrun
  · cases hrun
  · cases hrun
  · rename_i b rest htasks
    obtain rfl := Option.some.inj hrun
    exact h.runResolve htasks
  · rename_i rest htasks
    obtain rfl := Option.some.inj hrun
    have hpop := h.pop htasks
    exact hpop.trans (hpop.orderly.scheduleNext (h.calm_rest htasks))
  · rename_i rest htasks
    obtain rfl := Option.some.inj hrun
    have hpop := h.pop htasks
    exact hpop.trans (hpop.orderly.with_fields s.lastProposed true s.pmWaitPropose s.voted s.qcWaiting)
  · rename_i rest htasks
    obtain rfl := Option.some.inj hrun
    have hpop := h.pop htasks
    exact hpop.trans (hpop.orderly.with_fields s.lastProposed s.locked true s.voted s.qcWaiting)
  · rename_i blk rest htasks
    obtain rfl := Option.some.inj hrun
    have hpop := h.pop htasks
    exact hpop.trans (hpop.orderly.with_fields s.lastProposed s.locked s.pmWaitPropose s.voted
      (Function.update s.qcWaiting blk none))
  · rename_i b rest htasks
    obtain rfl := Option.some.inj hrun
    exact h.runThenBeat htasks

end Orderly

/-- The replica, its proposer and the number of the beats stay. -/
def Kept (s s' : PMWaitQC H) : Prop := s'.id = s.id ∧ s'.fixed = s.fixed ∧ s'.beats = s.beats

theorem proposed_kept (s : PMWaitQC H) (blk : H) : s.Kept (s.onPropose_ blk) := by
  unfold onPropose_
  split <;> exact ⟨rfl, rfl, rfl⟩

section Kept

variable [DecidableEq H]

omit [DecidableEq H] in
theorem onQcFinish_kept (s : PMWaitQC H) (blk : H) : s.Kept (s.onQcFinish blk) := by
  unfold onQcFinish
  split <;> exact ⟨rfl, rfl, rfl⟩

theorem scheduleNext_kept (s : PMWaitQC H) : s.Kept s.scheduleNext := by
  unfold scheduleNext
  split
  · exact ⟨rfl, rfl, rfl⟩
  rename_i k later _
  split
  · exact ⟨rfl, rfl, rfl⟩
  obtain ⟨ps, w, heq⟩ := Orderly.asyncQcFinish_eq
    { s with pendingBeats := later, promises := s.pmQcFinish.elim s.promises s.promises.reject }
    s.lastProposed
  dsimp only at heq ⊢
  rw [heq]
  exact ⟨rfl, rfl, rfl⟩

theorem runTask_kept (hrun : s.runTask = some s') : s.Kept s' := by
  unfold runTask at hrun
  split at hrun
  · cases hrun
  · cases hrun
  · cases hrun
  all_goals obtain rfl := Option.some.inj hrun
  · exact ⟨rfl, rfl, rfl⟩
  · exact scheduleNext_kept { s with tasks := _ }
  · exact ⟨rfl, rfl, rfl⟩
  · exact ⟨rfl, rfl, rfl⟩
  · exact ⟨rfl, rfl, rfl⟩
  · exact ⟨rfl, rfl, rfl⟩

end Kept

theorem init_orderly [DecidableEq H] (id : ReplicaID) (fixed : Option ReplicaID) (b0 : H) :
    (init id fixed b0).Orderly where
  queued := rfl
  length := Nat.le_refl 0
  resolved := nofun
  given := nofun
  held := by
    rintro pm b ⟨g, ks, hp, _⟩
    cases hp
  single := nofun
  resolving := nofun
  proposing := nofun
  giving := nofun
  once := Nat.zero_le 1
  calm := nofun

end PMWaitQC
end LibHotStuff
