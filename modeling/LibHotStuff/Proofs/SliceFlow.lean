import LibHotStuff.Proofs.Integrity
import LibHotStuff.Proofs.ReplicaRuns

/-! The slices that correct replicas hand out. -/

namespace LibHotStuff

variable {H Sig : Type} {P : Primitives H Sig}

/-- The slices that a call of the core sends. -/
def Output.slices : Output H Sig → List (Slice H)
  | doBroadcastSlice s => [s]
  | doBroadcastProposalWithSlice props => props.map (·.slice)
  | _ => []

/-- The slices that a call at the end of a core function sends. -/
def Task.slices : Task H Sig → List (Slice H)
  | doBroadcastProposalWithSlice props => props.map (·.slice)
  | _ => []

def Res.slices (r : Res H Sig) : List (Slice H) :=
  r.outs.flatMap Output.slices ++ r.tasks.flatMap Task.slices

/-- The slices that a replica has sent, or is about to send. -/
def Replica.slices (nd : Replica H Sig) : List (Slice H) :=
  nd.log.flatMap Output.slices ++ nd.tasks.flatMap Task.slices

namespace Output

theorem slices_of_commit {outs : List (Output H Sig)} (h : outs.all ofCommit = true) :
    outs.flatMap slices = [] := by
  rw [List.flatMap_eq_nil_iff]
  intro o ho
  have hcommit := List.all_eq_true.mp h o ho
  cases o with
  | doBroadcastSlice s => cases hcommit
  | doBroadcastProposalWithSlice props => cases hcommit
  | _ => rfl

end Output

namespace Core

variable [DecidableEq H] {R : Rules H Sig} {c c' u : Core H Sig} {outs : List (Output H Sig)}

theorem Move.slices (h : Move P R c outs c') : ∀ s ∈ outs.flatMap Output.slices, R.slice s := by
  intro s hs
  cases h with
  | pre h =>
    cases h with
    | shards _ => cases hs
    | @slice s' hrule _ =>
      obtain rfl := List.mem_singleton.mp hs
      exact hrule
    | prepare _ hp =>
      obtain ho | ho := hp.outs_eq
      · rw [ho] at hs
        cases hs
      · rw [ho] at hs
        cases hs
    | propose _ _ _ _ => cases hs
  | commit hto _ _ =>
    rw [Output.slices_of_commit hto.committed.outs] at hs
    cases hs

theorem Steps.slices (h : Steps (Move P R) c outs c') :
    ∀ s ∈ outs.flatMap Output.slices, R.slice s := by
  induction h with
  | nil => simp
  | cons hm _ ih =>
    intro s hs
    rw [List.flatMap_append, List.mem_append] at hs
    obtain hs | hs := hs
    · exact hm.slices s hs
    · exact ih s hs

theorem castVote_slices (hc : c.WellFormed P) (prop : Proposal H) :
    (c.castVote P prop).tasks.flatMap Task.slices = [] := by
  rw [List.flatMap_eq_nil_iff]
  intro t ht
  obtain ⟨o, _, heq⟩ := castVote_eq hc prop
  rw [heq] at ht
  simp only [List.mem_append, List.mem_cons] at ht
  obtain ht | rfl | ht := ht
  · unfold finishTasks at ht
    split at ht
    · cases ht
    · obtain ⟨_, _, rfl⟩ := List.mem_map.mp ht
      rfl
  · rfl
  · split at ht
    · rw [List.mem_singleton.mp ht]
      rfl
    · cases ht

/-- A call for a proposal sends the slices that it has taken in or made. -/
theorem Ends.slices {own : Option H} {r : Res H Sig} (h : Ends P R c own r) (hc : c.WellFormed P) :
    ∀ s ∈ r.slices, R.slice s := by
  intro s hs
  rw [Res.slices, List.mem_append] at hs
  cases h with
  | breach hsteps _ _ _ => exact hsteps.move.slices s (by simpa using hs)
  | fault hsteps _ => exact hsteps.slices s (by simpa using hs)
  | commit hsteps hto _ _ =>
    rw [List.flatMap_append, Output.slices_of_commit hto.committed.outs] at hs
    exact hsteps.move.slices s (by simpa using hs)
  | vote hsteps _ _ hafter =>
    rw [List.flatMap_append, castVote_slices (hsteps.wellFormed hc), List.nil_append] at hs
    obtain hs | hs := hs
    · exact hsteps.slices s hs
    · obtain ⟨_, rfl⟩ | ⟨_, _, _, _, props, rfl, hprops⟩ := hafter
      · cases hs
      · have hs : s ∈ props.map (·.slice) := by simpa [Task.slices] using hs
        obtain ⟨p, hp, rfl⟩ := List.mem_map.mp hs
        exact (hprops p hp).2.2

/-- A call for no proposal sends nothing but `hqc_update`, and leads to `on_qc_finish` only. -/
theorem call_plain (hc : c.WellFormed P) {i : Call H Sig} (hasks : Replica.Asks P c i) :
    (∃ prop, i = .onReceiveProposal prop) ∨
      (∃ cmds parents extra, i = .onPropose cmds parents extra) ∨
      ((c.call P i).outs = [] ∨ (c.call P i).outs = [.onHqcUpdate]) ∧
        ((c.call P i).tasks = [] ∨ ∃ blk, (c.call P i).tasks = [.onQcFinish blk]) := by
  cases i with
  | onReceiveProposal prop => exact Or.inl ⟨prop, rfl⟩
  | onPropose cmds parents extra => exact Or.inr (Or.inl ⟨cmds, parents, extra, rfl⟩)
  | setVoteDisabled f => exact hasks.elim
  | addBlk data => exact Or.inr (Or.inr ⟨Or.inl rfl, Or.inl rfl⟩)
  | onDeliverBlk blk =>
    obtain ⟨_, ho, ht, _⟩ := deliver_grows hc hasks
    exact Or.inr (Or.inr ⟨Or.inl ho, Or.inl ht⟩)
  | onReceiveVote vote =>
    right
    right
    rw [call]
    obtain h | h | ⟨c', _, h | h | ⟨_, hqc, outs, h, hcases⟩⟩ := onReceiveVote_cases hc vote
    · rw [h]
      exact ⟨Or.inl rfl, Or.inl rfl⟩
    · rw [h]
      exact ⟨Or.inl rfl, Or.inl rfl⟩
    · rw [h]
      exact ⟨Or.inl rfl, Or.inl rfl⟩
    · rw [h]
      exact ⟨Or.inl rfl, Or.inl rfl⟩
    · rw [h]
      refine ⟨?_, Or.inr ⟨_, rfl⟩⟩
      obtain ⟨_, ho⟩ | ⟨ho, _⟩ := hcases
      · exact Or.inl ho
      · exact Or.inr ho
  | onReceiveSlice s =>
    right
    right
    rw [call]
    obtain h | h | ⟨_, _, sc, _, h⟩ := onReceiveSlice_eq (P := P) c s
    · rw [h]
      exact ⟨Or.inl rfl, Or.inl rfl⟩
    · rw [h]
      exact ⟨Or.inl rfl, Or.inl rfl⟩
    · rw [h]
      exact ⟨Or.inl rfl, Or.inl rfl⟩

/-- Every call that a replica has checked does so. -/
theorem call_slices (hc : c.WellFormed P) {i : Call H Sig} (hasks : Replica.Asks P c i)
    (hf : c.Follows P R i) : ∀ s ∈ (c.call P i).slices, R.slice s := by
  obtain ⟨prop, rfl⟩ | ⟨cmds, parents, extra, rfl⟩ | ⟨ho, ht⟩ := call_plain hc hasks
  · obtain ⟨hid, _, _⟩ := hasks
    obtain ⟨hslice, hcommit, hvote⟩ := hf
    by_cases hhash : prop.sHash = P.hashSlice prop.slice
    · exact (onReceiveProposal_ends hc hid (hslice hhash) hcommit hvote).slices hc
    · have hfail : c.onReceiveProposal P prop = .fail c .assertion := by
        rw [onReceiveProposal, if_neg fun hok => hhash hok.1]
      rw [call, hfail]
      exact fun s hs => by cases hs
  · obtain ⟨hprop, hslice, hcommit, hvote⟩ := hf _ rfl
    obtain ⟨hpar, _⟩ | he := onPropose_ends hc cmds parents extra rfl (fun _ => hprop) hslice hcommit hvote
    · have hall : parents.all c.delivered = true := hasks
      rw [hall] at hpar
      cases hpar
    · exact he.slices hc
  · have hnil : (c.call P i).slices = [] := by
      obtain ho | ho := ho <;> obtain ht | ⟨blk, ht⟩ := ht <;> rw [Res.slices, ho, ht] <;> rfl
    simp [hnil]

end Core

namespace Replica

variable [DecidableEq H] {nd nd' : Replica H Sig}

omit [DecidableEq H] in
theorem mem_slices {s : Slice H} : s ∈ nd.slices ↔
    (∃ o ∈ nd.log, s ∈ o.slices) ∨ ∃ t ∈ nd.tasks, s ∈ t.slices := by
  rw [slices, List.mem_append, List.mem_flatMap, List.mem_flatMap]

theorem absorb_log (ord : List H) (rest : List (Task H Sig)) (res : Res H Sig) :
    (nd.absorb ord rest res).log = nd.log ++ res.outs := by
  unfold absorb
  dsimp only
  split <;> rfl

theorem absorb_tasks (ord : List H) (rest : List (Task H Sig)) (res : Res H Sig) :
    (nd.absorb ord rest res).tasks ⊆ res.tasks ++ rest := by
  unfold absorb
  dsimp only
  split
  · exact List.Subset.refl _
  · exact List.nil_subset _
  · exact List.nil_subset _

theorem absorb_slices {ord : List H} {rest : List (Task H Sig)} (hrest : rest ⊆ nd.tasks)
    (res : Res H Sig) : (nd.absorb ord rest res).slices ⊆ nd.slices ++ res.slices := by
  intro s hs
  rw [List.mem_append, mem_slices, Res.slices, List.mem_append, List.mem_flatMap, List.mem_flatMap]
  obtain ⟨o, ho, hso⟩ | ⟨t, ht, hst⟩ := mem_slices.mp hs
  · rw [absorb_log, List.mem_append] at ho
    obtain ho | ho := ho
    · exact Or.inl (Or.inl ⟨o, ho, hso⟩)
    · exact Or.inr (Or.inl ⟨o, ho, hso⟩)
  · obtain ht | ht := List.mem_append.mp (absorb_tasks ord rest res ht)
    · exact Or.inr (Or.inr ⟨t, ht, hst⟩)
    · exact Or.inl (Or.inr ⟨t, hrest ht, hst⟩)

/-- The output of a task that sends something. -/
def sends : Task H Sig → Option (Output H Sig)
  | .doVote last vote => some (.doVote last vote)
  | .doBroadcastProposalWithSlice props => some (.doBroadcastProposalWithSlice props)
  | _ => none

/-- A turn of the handler sends what its task was about to send, and leaves the other tasks. -/
theorem runTask_sends {ord : List H} (h : nd.runTask ord false = some nd') :
    ∃ t ∈ nd.tasks, nd'.log = nd.log ++ (sends t).toList ∧
      ∀ t' ∈ nd'.tasks, t' ∈ nd.tasks ∨ t' = .pacemaker := by
  cases htasks : nd.tasks with
  | nil => simp [runTask, htasks] at h
  | cons t rest =>
    have hold {t' : Task H Sig} (ht' : t' ∈ rest) : t' ∈ t :: rest ∨ t' = .pacemaker :=
      Or.inl (List.mem_cons_of_mem _ ht')
    have hnext {t' : Task H Sig} (ht' : t' ∈ Task.pacemaker :: rest) :
        t' ∈ t :: rest ∨ t' = .pacemaker := by
      obtain rfl | ht' := List.mem_cons.mp ht'
      · exact Or.inr rfl
      · exact hold ht'
    refine ⟨t, List.mem_cons_self, ?_⟩
    cases t with
    | onQcFinish blk =>
      simp only [runTask, htasks] at h
      split at h
      · obtain rfl := Option.some.inj h
        exact ⟨(List.append_nil _).symm, fun _ => hnext⟩
      · obtain rfl := Option.some.inj h
        exact ⟨(List.append_nil _).symm, fun _ => hold⟩
    | onReceiveProposal_ prop =>
      simp only [runTask, htasks, Option.some.injEq] at h
      rw [← h]
      exact ⟨(List.append_nil _).symm, fun _ => hold⟩
    | onPropose_ prop =>
      simp only [runTask, htasks, Option.some.injEq] at h
      rw [← h]
      exact ⟨(List.append_nil _).symm, fun _ => hnext⟩
    | doVote last vote =>
      simp only [runTask, htasks, Bool.false_eq_true, if_false, Option.some.injEq] at h
      rw [← h]
      exact ⟨rfl, fun _ => hold⟩
    | doBroadcastProposalWithSlice props =>
      simp only [runTask, htasks, Option.some.injEq] at h
      rw [← h]
      exact ⟨rfl, fun _ => hold⟩
    | pacemaker =>
      simp only [runTask, htasks, Option.some.injEq] at h
      rw [← h]
      exact ⟨(List.append_nil _).symm, fun _ => hold⟩

/-- A task of the handler sends what was about to be sent. -/
theorem runTask_slices {ord : List H} (h : nd.runTask ord false = some nd') :
    nd'.slices ⊆ nd.slices := by
  obtain ⟨t, ht, hlog, htasks⟩ := runTask_sends h
  intro s hs
  rw [mem_slices]
  obtain ⟨o, ho, hso⟩ | ⟨t', ht', hst⟩ := mem_slices.mp hs
  · rw [hlog, List.mem_append, Option.mem_toList] at ho
    obtain ho | ho := ho
    · exact Or.inl ⟨o, ho, hso⟩
    · refine Or.inr ⟨t, ht, ?_⟩
      cases t with
      | doVote last vote =>
        rw [← Option.some.inj ho] at hso
        cases hso
      | doBroadcastProposalWithSlice props =>
        rw [← Option.some.inj ho] at hso
        exact hso
      | _ => cases ho
  · obtain ht' | rfl := htasks t' ht'
    · exact Or.inr ⟨t', ht', hst⟩
    · cases hst

/-- An event sends nothing new, or what its call of the core sends. -/
theorem handle_slices {e : Event H Sig} (h : nd.handle P e = some nd') :
    nd'.slices ⊆ nd.slices ∨ ∃ i, Makes P e i ∧ Asks P nd.core i ∧
      nd'.slices ⊆ nd.slices ++ (nd.core.call P i).slices := by
  obtain ⟨i, hmakes, hasks, outs, ord, rest, hrest, houts, rfl⟩ | ⟨ord, hrun⟩ | ⟨_, rfl⟩ :=
    handle_cases h
  · refine Or.inr ⟨i, hmakes, hasks, ?_⟩
    have hsame : ({ nd with log := nd.log ++ outs } : Replica H Sig).slices = nd.slices := by
      obtain rfl | ⟨last, vote, rfl, _⟩ := houts
      · rw [List.append_nil]
      · simp [slices, Output.slices]
    rw [← hsame]
    refine absorb_slices ?_ _
    exact hrest
  · exact Or.inl (runTask_slices hrun)
  · exact Or.inl (List.Subset.refl _)

end Replica

end LibHotStuff
