import LibHotStuff.Proofs.DeliveredDag
import LibHotStuff.Proofs.Sturdy

/-! Runs of one replica, call by call. -/

namespace LibHotStuff.Replica

variable {H Sig : Type} [DecidableEq H] {P : Primitives H Sig} {nd nd' : Replica H Sig}

/-- What a replica checks before a call of the core. -/
def Asks (P : Primitives H Sig) (c : Core H Sig) : Call H Sig → Prop
  | .addBlk _ => True
  | .onDeliverBlk blk => deliverable P c blk = true
  | .onReceiveProposal prop =>
    prop.proposer ≠ c.id ∧ prop.slice.decodable = true ∧ c.delivered prop.blk = true
  | .onReceiveVote _ => True
  | .onReceiveSlice s => s.decodable = true
  | .onPropose _ parents _ => parents.all c.delivered = true
  | .setVoteDisabled _ => False

/-- The call that an event makes; a vote may be one that the replica hands to itself. -/
def Makes (P : Primitives H Sig) (e : Event H Sig) (i : Call H Sig) : Prop :=
  e.call? = some i ∧ e.heeded P = true ∨ ∃ vote, i = .onReceiveVote vote

/-- A replica that has halted takes no step. -/
theorem handle_running {e : Event H Sig} (h : nd.handle P e = some nd') : nd.halted = false := by
  have hidle (hi : nd.idle = true) : nd.halted = false := (idle_iff.mp hi).1
  have hpace (hi : nd.atPacemaker = true) : nd.halted = false := by
    simp only [atPacemaker, Bool.and_eq_true, Bool.not_eq_true'] at hi
    exact hi.1
  cases e with
  | fetch r src data =>
    simp only [handle, Option.ite_none_right_eq_some] at h
    exact hidle h.1
  | deliver r blk =>
    simp only [handle, Option.ite_none_right_eq_some, Bool.and_eq_true] at h
    exact hidle h.1.1
  | receiveProposal r src ord prop =>
    simp only [handle, Option.ite_none_right_eq_some, Bool.and_eq_true] at h
    exact hidle h.1.1.1.1.1.1
  | receiveVote r ord vote =>
    simp only [handle, Option.ite_none_right_eq_some, Bool.and_eq_true] at h
    exact hidle h.1.1.1.1.1
  | receiveSlice r src hash slice =>
    simp only [handle, Option.ite_none_right_eq_some, Bool.and_eq_true] at h
    exact hidle h.1.1
  | propose r ord cmds parents extra =>
    simp only [handle, Option.ite_none_right_eq_some, Bool.and_eq_true] at h
    exact hpace h.1.1
  | asyncQcFinish r blk =>
    simp only [handle, Option.ite_none_right_eq_some, Bool.and_eq_true] at h
    exact hpace h.1.1
  | runTask r ord toSelf =>
    simp only [handle] at h
    split at h
    · cases h
    · rename_i hhalted
      simpa using hhalted

theorem absorb_calm {ord : List H} {rest : List (Task H Sig)} {res : Res H Sig}
    (h : (nd.absorb ord rest res).halted = false) : res.Calm := by
  intro f hf
  unfold absorb at h
  simp only [hf] at h
  split at h
  · rename_i hnone
    cases hnone
  · rename_i e he
    exact ⟨e, Option.some.inj he⟩
  · cases h

/-- What a replica absorbs: the end of a call of the core, made when it had what it had before, but
for a vote that it hands to itself. -/
structure Absorbs (P : Primitives H Sig) (nd : Replica H Sig) (e : Event H Sig) (i : Call H Sig)
    (nd' : Replica H Sig) : Prop where
  makes : Makes P e i
  asks : Asks P nd.core i
  absorbs : ∃ outs ord rest, rest ⊆ nd.tasks ∧
    (outs = [] ∨ ∃ last vote, outs = [.doVote last vote] ∧ .doVote last vote ∈ nd.tasks) ∧
    nd' = ({ nd with log := nd.log ++ outs } : Replica H Sig).absorb ord rest (nd.core.call P i)

/-- An event makes one call of the core that the replica has checked, or it is a turn of the handler
that runs, or it leaves all but `qc_waiting` alone. -/
theorem handle_cases {e : Event H Sig} (h : nd.handle P e = some nd') :
    (∃ i, Absorbs P nd e i nd') ∨ (∃ ord, nd.runTask ord false = some nd') ∨
      ∃ waiting, nd' = { nd with qcWaiting := waiting } := by
  have made {ord : List H} {rest : List (Task H Sig)} (i : Call H Sig)
      (hmakes : e.call? = some i ∧ e.heeded P = true) (hasks : Asks P nd.core i)
      (hrest : rest ⊆ nd.tasks) (heq : nd' = nd.absorb ord rest (nd.core.call P i)) :
      ∃ i, Absorbs P nd e i nd' :=
    ⟨i, Or.inl hmakes, hasks, [], ord, rest, hrest, Or.inl rfl, by rw [List.append_nil]; exact heq⟩
  cases e with
  | fetch r src data =>
    simp only [handle, Option.ite_none_right_eq_some, Option.some.injEq] at h
    obtain ⟨_, rfl⟩ := h
    have hset : ({ nd with core := Core.addBlk P nd.core data.fetched } : Replica H Sig) =
        nd.absorb [] nd.tasks (nd.core.call P (.addBlk data)) := by
      simp [absorb, Core.call, Res.ok]
    exact Or.inl (made (.addBlk data) ⟨rfl, rfl⟩ trivial (List.Subset.refl _) hset)
  | deliver r blk =>
    simp only [handle, Option.ite_none_right_eq_some, Bool.and_eq_true, Option.some.injEq] at h
    obtain ⟨⟨_, hd⟩, rfl⟩ := h
    exact Or.inl (made (.onDeliverBlk blk) ⟨rfl, rfl⟩ hd (List.nil_subset _) rfl)
  | receiveProposal r src ord prop =>
    simp only [handle, Option.ite_none_right_eq_some, Bool.and_eq_true, decide_eq_true_eq,
      Option.some.injEq] at h
    obtain ⟨⟨⟨⟨⟨⟨_, hsrc⟩, hid⟩, _⟩, hdec⟩, hd⟩, rfl⟩ := h
    refine Or.inl (made (.onReceiveProposal prop) ⟨rfl, rfl⟩ ⟨?_, hdec, hd⟩ (List.nil_subset _) rfl)
    rwa [hsrc]
  | receiveVote r ord vote =>
    simp only [handle, Option.ite_none_right_eq_some, Option.some.injEq] at h
    obtain ⟨_, rfl⟩ := h
    exact Or.inl (made (.onReceiveVote vote) ⟨rfl, rfl⟩ trivial (List.nil_subset _) rfl)
  | receiveSlice r src hash slice =>
    simp only [handle, Option.ite_none_right_eq_some, Bool.and_eq_true] at h
    obtain ⟨⟨_, hdec⟩, h⟩ := h
    split at h
    · rename_i hhash
      obtain rfl := Option.some.inj h
      exact Or.inl (made (.onReceiveSlice slice) ⟨rfl, decide_eq_true hhash⟩ hdec
        (List.nil_subset _) rfl)
    · obtain rfl := Option.some.inj h
      exact Or.inr (Or.inr ⟨nd.qcWaiting, rfl⟩)
  | propose r ord cmds parents extra =>
    simp only [handle, Option.ite_none_right_eq_some, Bool.and_eq_true, Option.some.injEq] at h
    obtain ⟨⟨_, hpar⟩, rfl⟩ := h
    exact Or.inl (made (.onPropose cmds parents extra) ⟨rfl, rfl⟩ hpar (List.Subset.refl _) rfl)
  | asyncQcFinish r blk =>
    simp only [handle, Option.ite_none_right_eq_some, Option.some.injEq] at h
    obtain ⟨_, rfl⟩ := h
    exact Or.inr (Or.inr ⟨_, rfl⟩)
  | runTask r ord toSelf =>
    simp only [handle] at h
    split at h
    · cases h
    cases toSelf with
    | false => exact Or.inr (Or.inl ⟨ord, h⟩)
    | true =>
      obtain hrun | ⟨last, vote, rest, htasks, rfl⟩ := runTask_self h
      · exact Or.inr (Or.inl ⟨ord, hrun⟩)
      · have hmem : Task.doVote last vote ∈ nd.tasks ∧ rest ⊆ nd.tasks := by
          rw [htasks]
          exact ⟨List.mem_cons_self, List.subset_cons_self _ _⟩
        exact Or.inl ⟨.onReceiveVote vote, Or.inr ⟨vote, rfl⟩, trivial, _, ord, rest, hmem.2,
          Or.inr ⟨last, vote, rfl, hmem.1⟩, rfl⟩

/-- An event leaves the core alone, or makes one call of it that the replica has checked. -/
theorem handle_call {e : Event H Sig} (h : nd.handle P e = some nd') :
    nd'.core = nd.core ∨ ∃ i, Makes P e i ∧ Asks P nd.core i ∧ nd'.core = (nd.core.call P i).core ∧
      (nd'.halted = false → (nd.core.call P i).Calm) := by
  obtain ⟨i, hmakes, hasks, outs, ord, rest, _, _, heq⟩ | ⟨ord, hrun⟩ | ⟨_, rfl⟩ := handle_cases h
  · refine Or.inr ⟨i, hmakes, hasks, by rw [heq, absorb_core], fun hhalt => ?_⟩
    rw [heq] at hhalt
    exact absorb_calm hhalt
  · exact Or.inl (runTask_core hrun)
  · exact Or.inl rfl

variable {dummy : QuorumCert H Sig} {replicas : List NetAddr} {listenAddr : NetAddr} {id : ReplicaID}
  {cond : Replica H Sig → Event H Sig → Prop} {inv : Core H Sig → Prop}

theorem Runs.wellFormed (h : nd.Runs P dummy replicas listenAddr id cond) :
    nd.core.WellFormed P := by
  apply Transition.Reaches.invariant h
  · exact (Core.start_started P id dummy replicas listenAddr).wellFormed
  · intro nd e nd' hwf _ hstep
    have hadv : nd.core.Advances P (fun _ => True) nd'.core :=
      handle_advances hwf (fun _ _ => trivial) hstep
    exact hadv.wellFormed

/-- What each call keeps holds of every state of a run. -/
theorem Runs.always (h : nd.Runs P dummy replicas listenAddr id cond)
    (hinit : inv ((Core.new P id dummy).start replicas listenAddr))
    (hcall : ∀ c i, c.WellFormed P → inv c → Asks P c i → inv (c.call P i).core) :
    nd.core.WellFormed P ∧ inv nd.core := by
  apply Transition.Reaches.invariant h
  · exact ⟨(Core.start_started P id dummy replicas listenAddr).wellFormed, hinit⟩
  · rintro nd e nd' ⟨hwf, hinv⟩ _ hstep
    have hadv : nd.core.Advances P (fun _ => True) nd'.core :=
      handle_advances hwf (fun _ _ => trivial) hstep
    refine ⟨hadv.wellFormed, ?_⟩
    obtain heq | ⟨i, _, hasks, heq, _⟩ := handle_call hstep
    · rw [heq]
      exact hinv
    · rw [heq]
      exact hcall nd.core i hwf hinv hasks

/-- What each call that returns keeps, or that ends in an exception, holds of every state of a run
that has not halted. -/
theorem Runs.keeps (h : nd.Runs P dummy replicas listenAddr id cond)
    (hinit : inv ((Core.new P id dummy).start replicas listenAddr))
    (hcall : ∀ nd e i, nd.core.WellFormed P → inv nd.core → cond nd e → Makes P e i →
      Asks P nd.core i → (nd.core.call P i).Calm → inv (nd.core.call P i).core) :
    nd.halted = false → inv nd.core := by
  have hboth : nd.core.WellFormed P ∧ (nd.halted = false → inv nd.core) := by
    apply Transition.Reaches.invariant h
    · exact ⟨(Core.start_started P id dummy replicas listenAddr).wellFormed, fun _ => hinit⟩
    · rintro nd e nd' ⟨hwf, hinv⟩ hcond hstep
      have hadv : nd.core.Advances P (fun _ => True) nd'.core :=
        handle_advances hwf (fun _ _ => trivial) hstep
      refine ⟨hadv.wellFormed, fun hhalt => ?_⟩
      have hold := hinv (handle_running hstep)
      obtain heq | ⟨i, hmakes, hasks, heq, hcalm⟩ := handle_call hstep
      · rw [heq]
        exact hold
      · rw [heq]
        exact hcall nd e i hwf hold hcond hmakes hasks (hcalm hhalt)
  exact hboth.2

end LibHotStuff.Replica
