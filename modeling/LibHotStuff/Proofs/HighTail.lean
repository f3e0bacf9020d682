import LibHotStuff.Model.Environment
import LibHotStuff.Proofs.CertificateOrder

namespace LibHotStuff

open Chain

variable {H Sig : Type}

/-- The own block whose `on_propose_` has still to be called. -/
def pendingOwn : List (Task H Sig) → Option H
  | [] => none
  | .onPropose_ prop :: _ => some prop.blk
  | _ :: rest => pendingOwn rest

/-- The calls that come before the `on_propose_` of block `x`. -/
def Task.about (x : H) : Task H Sig → Prop
  | .onQcFinish blk => blk = x
  | .onReceiveProposal_ prop => prop.blk = x
  | .doVote _ vote => vote.blkHash = x
  | _ => False

/-- An own proposal is handed to the pacemaker before another one is made. -/
def Orderly : List (Task H Sig) → Prop
  | [] => True
  | t :: rest => (∀ x, pendingOwn rest = some x → t.about x) ∧ Orderly rest

theorem pendingOwn_cons {t : Task H Sig} (h : ∀ prop, t ≠ .onPropose_ prop)
    (rest : List (Task H Sig)) : pendingOwn (t :: rest) = pendingOwn rest := by
  cases t <;> first | rfl | exact absurd rfl (h _)

theorem pendingOwn_append {tasks : List (Task H Sig)} (h : pendingOwn tasks = none)
    (rest : List (Task H Sig)) : pendingOwn (tasks ++ rest) = pendingOwn rest := by
  induction tasks with
  | nil => rfl
  | cons t tasks ih =>
    have hne (prop : Proposal H) : t ≠ .onPropose_ prop := by
      rintro rfl
      cases h
    rw [pendingOwn_cons hne] at h
    rw [List.cons_append, pendingOwn_cons hne, ih h]

theorem Orderly.append {tasks rest : List (Task H Sig)} (h : pendingOwn tasks = none)
    (hall : ∀ t ∈ tasks, ∀ x, pendingOwn rest = some x → t.about x) (hrest : Orderly rest) :
    Orderly (tasks ++ rest) := by
  induction tasks with
  | nil => exact hrest
  | cons t tasks ih =>
    have hne (prop : Proposal H) : t ≠ .onPropose_ prop := by
      rintro rfl
      cases h
    rw [pendingOwn_cons hne] at h
    rw [List.cons_append, Orderly, pendingOwn_append h]
    exact ⟨hall t List.mem_cons_self, ih h fun t' ht' => hall t' (.tail _ ht')⟩

namespace Core

variable [DecidableEq H] {P : Primitives H Sig} {R : Rules H Sig} {c c' : Core H Sig}
  {outs : List (Output H Sig)}

/-- What `PMHighTail` finds is `hqc` or a tail above it. -/
theorem highTail_onChain (hc : c.WellFormed P) (ord : List H) :
    c.delivered (c.highTail ord) = true ∧ OnChain P.parent (c.highTail ord) c.hqc.1 := by
  have htails : ∀ t ∈ ord.filter (· ∈ c.tails) ++ c.tails.filter (· ∉ ord), t ∈ c.tails := by
    intro t ht
    rcases List.mem_append.mp ht with ht | ht
    · simpa using (List.mem_filter.mp ht).2
    · exact (List.mem_filter.mp ht).1
  unfold highTail
  generalize ord.filter (· ∈ c.tails) ++ c.tails.filter (· ∉ ord) = tails at *
  -- the block found so far stays above `hqc`
  suffices h : ∀ t, c.delivered t = true ∧ OnChain P.parent t c.hqc.1 →
      c.delivered (tails.foldl (fun t tail =>
        if c.checkAncestry c.hqc.1 tail && decide (c.height t < c.height tail) then tail else t) t)
          = true ∧
        OnChain P.parent (tails.foldl (fun t tail =>
          if c.checkAncestry c.hqc.1 tail && decide (c.height t < c.height tail) then tail else t) t)
          c.hqc.1 from h _ ⟨hc.hqcDelivered, .refl _⟩
  induction tails with
  | nil => exact fun t ht => ht
  | cons tail tails ih =>
    intro t ht
    refine ih (fun x hx => htails x (.tail _ hx)) _ ?_
    dsimp only
    split
    · rename_i hup
      have hd := hc.tailsDelivered tail (htails tail List.mem_cons_self)
      have hanc := (Bool.and_eq_true_iff.mp hup).1
      exact ⟨hd, (hc.dag.checkAncestry_iff hc.hqcDelivered hd).mp hanc⟩
    · exact ht

/-- `hqc` stays as it is, or moves up and the pacemaker is told. -/
def HqcStep (P : Primitives H Sig) (c : Core H Sig) (outs : List (Output H Sig))
    (c' : Core H Sig) : Prop :=
  c'.hqc = c.hqc ∧ outs.any Output.isHqcUpdate = false ∨
    outs.any Output.isHqcUpdate = true ∧ P.depth c.hqc.1 < P.depth c'.hqc.1

omit [DecidableEq H] in
theorem HqcStep.append {c'' : Core H Sig} {outs' : List (Output H Sig)}
    (h : c.HqcStep P outs c') (h' : c'.HqcStep P outs' c'') : c.HqcStep P (outs ++ outs') c'' := by
  unfold HqcStep at *
  rw [List.any_append]
  rcases h with ⟨heq, hno⟩ | ⟨hup, hlt⟩
  · rw [hno, Bool.false_or, ← heq]
    exact h'
  · rw [hup, Bool.true_or]
    apply Or.inr
    rcases h' with ⟨heq, _⟩ | ⟨_, hlt'⟩
    · exact ⟨rfl, by rwa [heq]⟩
    · exact ⟨rfl, hlt.trans hlt'⟩

omit [DecidableEq H] in
theorem ofCommit_isHqcUpdate (h : outs.all Output.ofCommit = true) :
    outs.any Output.isHqcUpdate = false := by
  rw [List.any_eq_false]
  intro o ho
  have hc := List.all_eq_true.mp h o ho
  cases o <;> simp_all [Output.ofCommit, Output.isHqcUpdate]

theorem Move.hqcStep (h : Move P R c outs c') (hc : c.WellFormed P) : c.HqcStep P outs c' := by
  cases h with
  | pre h =>
    cases h with
    | shards _ => exact Or.inl ⟨rfl, rfl⟩
    | slice _ _ => exact Or.inl ⟨rfl, rfl⟩
    | prepare _ hp =>
      rename_i nblk _
      rcases hp.hqc with ⟨heq, rfl⟩ | ⟨rfl, hlt, heq, _⟩
      · exact Or.inl ⟨heq, rfl⟩
      · rw [hc.dag.height_eq hc.hqcDelivered] at hlt
        have hle := hc.dag.height_le (P.justify nblk)
        apply Or.inr
        rw [heq]
        exact ⟨rfl, by omega⟩
    | propose hg _ _ _ => exact Or.inl ⟨hg.quiet.hqc, rfl⟩
  | commit hto _ _ =>
    exact Or.inl ⟨hto.committed.same.hqc, ofCommit_isHqcUpdate hto.committed.outs⟩

theorem Steps.hqcStep (h : Steps (Move P R) c outs c') (hc : c.WellFormed P) :
    c.HqcStep P outs c' := by
  induction h with
  | nil => exact Or.inl ⟨rfl, rfl⟩
  | cons hm _ ih => exact (hm.hqcStep hc).append (ih (hm.wellFormed hc))

/-- What a call keeps that the pacemaker relies on. -/
structure Onward (P : Primitives H Sig) (c : Core H Sig) (res : Res H Sig) : Prop where
  wellFormed : res.core.WellFormed P
  delivered : ∀ h, c.delivered h = true → res.core.delivered h = true
  hqc : c.HqcStep P res.outs res.core

theorem Ends.onward (hc : c.WellFormed P) {own : Option H} {res : Res H Sig}
    (h : Ends P R c own res) : c.Onward P res := by
  cases h with
  | breach hsteps _ _ _ =>
    exact ⟨hsteps.move.wellFormed hc, hsteps.move.stable.delivered, hsteps.move.hqcStep hc⟩
  | fault hsteps _ => exact ⟨hsteps.wellFormed hc, hsteps.stable.delivered, hsteps.hqcStep hc⟩
  | commit hsteps hto _ _ =>
    have hwf := hsteps.move.wellFormed hc
    have hcom := hto.committed
    refine ⟨hcom.wellFormed hwf (hto.queue_delivered hwf).2, fun h hd => ?_, ?_⟩
    · exact hcom.stable.delivered h (hsteps.move.stable.delivered h hd)
    · apply (hsteps.move.hqcStep hc).append
      exact Or.inl ⟨hcom.same.hqc, ofCommit_isHqcUpdate hcom.outs⟩
  | @vote u outs extra prop hsteps _ _ _ =>
    have hwf := hsteps.wellFormed hc
    obtain ⟨o, _, hcast⟩ := castVote_eq hwf prop
    have hstep := hsteps.hqcStep hc
    rw [hcast]
    cases o with
    | false => exact ⟨hwf, hsteps.stable.delivered, hstep⟩
    | true => exact ⟨hwf.with_vheight _, hsteps.stable.delivered, hstep⟩

/-- The tasks up to the vote are about the block that is voted for. -/
theorem castVote_tasks (hc : c.WellFormed P) (prop : Proposal H) :
    pendingOwn (c.castVote P prop).tasks = none ∧ (prop.proposer = c.id →
      ∀ t ∈ (c.castVote P prop).tasks, t.about prop.blk) := by
  obtain ⟨o, _, hcast⟩ := castVote_eq hc prop
  have hfinish : pendingOwn (c.finishTasks prop) = none := by
    unfold finishTasks
    split
    · rfl
    · cases c.qcRef prop.blk <;> rfl
  rw [hcast]
  constructor
  · rw [pendingOwn_append hfinish]
    cases o && !c.voteDisabled <;> rfl
  · intro hown t ht
    rw [finishTasks, if_pos hown, List.nil_append] at ht
    cases hvote : o && !c.voteDisabled with
    | false =>
      rw [hvote] at ht
      rw [List.mem_singleton.mp ht]
      rfl
    | true =>
      rw [hvote] at ht
      rcases List.mem_cons.mp ht with rfl | ht
      · rfl
      · rw [List.mem_singleton.mp ht]
        rfl

theorem Ends.pendingOwn (hc : c.WellFormed P) {res : Res H Sig} (h : Ends P R c none res) :
    pendingOwn res.tasks = none := by
  cases h with
  | breach _ _ _ _ => rfl
  | fault _ _ => rfl
  | commit _ _ _ _ => rfl
  | vote hsteps _ _ hafter =>
    rcases hafter with ⟨_, rfl⟩ | ⟨hown, _⟩
    · rw [List.append_nil]
      exact (castVote_tasks (hsteps.wellFormed hc) _).1
    · cases hown

/-- A vote for a block makes its certificate the highest one or leaves `hqc` as it is. -/
theorem onReceiveVote_onward (hc : c.WellFormed P) (vote : Vote H Sig) :
    c.Onward P (c.onReceiveVote vote) ∧ pendingOwn (c.onReceiveVote vote).tasks = none ∧
      (∀ t ∈ (c.onReceiveVote vote).tasks, t.about vote.blkHash) ∧
        ((c.onReceiveVote vote).core.hqc = c.hqc ∨
          (c.onReceiveVote vote).core.hqc.1 = vote.blkHash) := by
  rcases onReceiveVote_cases hc vote with h | h | ⟨c', hk, hres⟩
  · rw [h]
    exact ⟨⟨hc, fun _ hd => hd, Or.inl ⟨rfl, rfl⟩⟩, rfl, by simp [Res.fail], Or.inl rfl⟩
  · rw [h]
    exact ⟨⟨hc, fun _ hd => hd, Or.inl ⟨rfl, rfl⟩⟩, rfl, by simp [Res.ok], Or.inl rfl⟩
  have hhqc : c'.hqc = c.hqc := by
    have hq := congrArg Core.hqc hk.rest
    exact hq
  have hdel (x : H) (hd : c.delivered x = true) : c'.delivered x = true := by
    rw [hk.sameDag.delivered, hd]
  have counted : c.Onward P (.ok c') := ⟨hk.wellFormed, hdel, Or.inl ⟨hhqc, rfl⟩⟩
  rcases hres with h | h | ⟨_, hqc, outs, h, ⟨rfl, rfl⟩ | ⟨rfl, hlt, hfst, hobj⟩⟩
  · rw [h]
    exact ⟨⟨hk.wellFormed, hdel, Or.inl ⟨hhqc, rfl⟩⟩, rfl, by simp [Res.fail], Or.inl hhqc⟩
  · rw [h]
    exact ⟨counted, rfl, by simp [Res.ok], Or.inl hhqc⟩
  · rw [h, ← hhqc]
    exact ⟨⟨hk.wellFormed, hdel, Or.inl ⟨hhqc, rfl⟩⟩, rfl, by simp [Task.about], Or.inl rfl⟩
  · rw [h]
    refine ⟨⟨?_, hdel, Or.inr ⟨rfl, ?_⟩⟩, rfl, by simp [Task.about], Or.inr hfst⟩
    · apply hk.wellFormed.with_hqc
      · rw [hfst, hk.sameDag.delivered, hk.delivered]
      · rw [hobj, hfst]
    · change P.depth c.hqc.1 < P.depth hqc.1
      rw [hc.dag.height_eq hc.hqcDelivered, hc.dag.height_eq hk.delivered] at hlt
      rw [hfst]
      exact hlt

/-- Block `x` has been made by the replica and `on_propose_` has still to be called for it. -/
structure Pending (P : Primitives H Sig) (c : Core H Sig) (proposed : List H) (x : H) : Prop where
  delivered : c.delivered x = true
  onChain : OnChain P.parent x c.hqc.1
  justify_le : P.depth (P.justify x) ≤ P.depth c.hqc.1
  fresh : x ≠ P.genesisHash ∧ x ∉ proposed
  above : ∀ y ∈ proposed, P.justify y = c.hqc.1 → P.depth y ≤ P.depth x

end Core

variable [DecidableEq H] {P : Primitives H Sig}

/-- The invariant of `PMHighTail`: `hqc_tail` extends `hqc`, and is not below the own blocks that
carry its certificate. -/
structure Replica.HighTail (P : Primitives H Sig) (nd : Replica H Sig) : Prop where
  wellFormed : nd.core.WellFormed P
  delivered : nd.core.delivered nd.hqcTail = true
  onChain : OnChain P.parent nd.hqcTail nd.core.hqc.1
  waiting : ∀ x ∈ nd.qcWaiting, x = P.genesisHash ∨ x ∈ nd.lastProposed
  justify_le : ∀ x ∈ nd.lastProposed, P.depth (P.justify x) ≤ P.depth nd.core.hqc.1
  below : ∀ x ∈ nd.lastProposed, P.justify x = nd.core.hqc.1 → P.depth x ≤ P.depth nd.hqcTail
  orderly : Orderly nd.tasks
  pending : ∀ x, pendingOwn nd.tasks = some x → nd.core.Pending P nd.lastProposed x

namespace Replica

variable {nd nd' : Replica H Sig}

namespace HighTail

/-- What a call leaves of the invariant, whatever the handler has still to do. -/
theorem onward (h : nd.HighTail P) {res : Res H Sig} (ho : nd.core.Onward P res) (ord : List H)
    {tasks : List (Task H Sig)} (hord : Orderly tasks)
    (hpend : ∀ x, pendingOwn tasks = some x → res.core.Pending P nd.lastProposed x)
    (hcore : nd'.core = res.core) (hproposed : nd'.lastProposed = nd.lastProposed)
    (hwaiting : nd'.qcWaiting = nd.qcWaiting) (htasks : nd'.tasks = tasks)
    (htail : nd'.hqcTail =
      if res.outs.any Output.isHqcUpdate then res.core.highTail ord else nd.hqcTail) :
    nd'.HighTail P := by
  have htail' : res.core.delivered nd'.hqcTail = true ∧
      OnChain P.parent nd'.hqcTail res.core.hqc.1 ∧
      P.depth nd.core.hqc.1 ≤ P.depth res.core.hqc.1 ∧
      ∀ x ∈ nd.lastProposed, P.justify x = res.core.hqc.1 → P.depth x ≤ P.depth nd'.hqcTail := by
    rw [htail]
    rcases ho.hqc with ⟨heq, hno⟩ | ⟨hup, hlt⟩
    · rw [hno, heq]
      exact ⟨ho.delivered _ h.delivered, h.onChain, Nat.le_refl _, h.below⟩
    · rw [hup]
      obtain ⟨hd, hon⟩ := Core.highTail_onChain ho.wellFormed ord
      refine ⟨hd, hon, Nat.le_of_lt hlt, fun x hx hj => ?_⟩
      have hle := h.justify_le x hx
      rw [hj] at hle
      exact absurd hlt (Nat.not_lt.mpr hle)
  obtain ⟨hd, hon, hmono, hbelow⟩ := htail'
  constructor
  · rw [hcore]
    exact ho.wellFormed
  · rw [hcore]
    exact hd
  · rw [hcore]
    exact hon
  · rw [hwaiting, hproposed]
    exact h.waiting
  · rw [hproposed, hcore]
    exact fun x hx => (h.justify_le x hx).trans hmono
  · rw [hproposed, hcore]
    exact hbelow
  · rw [htasks]
    exact hord
  · rw [htasks, hproposed, hcore]
    exact hpend

theorem absorb (h : nd.HighTail P) {res : Res H Sig} (ho : nd.core.Onward P res) (ord : List H)
    (rest : List (Task H Sig)) (hord : res.exit = none → Orderly (res.tasks ++ rest))
    (hpend : res.exit = none → ∀ x, pendingOwn (res.tasks ++ rest) = some x →
      res.core.Pending P nd.lastProposed x) : (nd.absorb ord rest res).HighTail P := by
  have hnil : Orderly ([] : List (Task H Sig)) := trivial
  unfold Replica.absorb
  dsimp only
  split
  · rename_i hexit
    exact h.onward ho ord (hord hexit) (hpend hexit) rfl rfl rfl rfl rfl
  · exact h.onward ho ord hnil (fun _ hx => nomatch hx) rfl rfl rfl rfl rfl
  · exact h.onward ho ord hnil (fun _ hx => nomatch hx) rfl rfl rfl rfl rfl

/-- Between two handlers, a call that makes no proposal. -/
theorem absorb_idle (h : nd.HighTail P) {res : Res H Sig} (ho : nd.core.Onward P res)
    (ord : List H) (hown : pendingOwn res.tasks = none) : (nd.absorb ord [] res).HighTail P := by
  apply h.absorb ho ord
  · intro _
    exact Orderly.append hown (fun _ _ _ hx => nomatch hx) trivial
  · intro _ x hx
    rw [List.append_nil, hown] at hx
    cases hx

omit [DecidableEq H] in
/-- A task is done that is not the last step of an own proposal. -/
theorem pop (h : nd.HighTail P) {t : Task H Sig} {rest : List (Task H Sig)}
    (htasks : nd.tasks = t :: rest) (hne : ∀ prop, t ≠ .onPropose_ prop) :
    Orderly rest ∧ ∀ x, pendingOwn rest = some x →
      t.about x ∧ nd.core.Pending P nd.lastProposed x := by
  have hord := h.orderly
  have hpend := h.pending
  rw [htasks] at hord hpend
  rw [pendingOwn_cons hne] at hpend
  exact ⟨hord.2, fun x hx => ⟨hord.1 x hx, hpend x hx⟩⟩

omit [DecidableEq H] in
/-- At the pacemaker no own proposal is pending. -/
theorem at_pacemaker (h : nd.HighTail P) (hat : nd.atPacemaker = true) :
    pendingOwn nd.tasks = none := by
  have hord := h.orderly
  unfold atPacemaker at hat
  rw [Bool.and_eq_true] at hat
  have hhead := hat.2
  split at hhead
  · rename_i hnil
    rw [hnil]
    rfl
  · rename_i rest htasks
    rw [htasks] at hord ⊢
    cases hrest : pendingOwn rest with
    | none => exact hrest
    | some x => exact absurd (hord.1 x hrest) id
  · cases hhead

theorem runTask (h : nd.HighTail P) {ord : List H} (hrun : nd.runTask ord false = some nd') :
    nd'.HighTail P := by
  unfold Replica.runTask at hrun
  split at hrun
  · cases hrun
  · rename_i blk rest htasks
    obtain ⟨hord, hpend⟩ := h.pop htasks (fun _ => nofun)
    split at hrun
    · rename_i hmem
      obtain rfl := Option.some.inj hrun
      -- the promise is not for a block that is still to be handed to the pacemaker
      have hnone (x : H) : pendingOwn rest ≠ some x := by
        intro hx
        obtain ⟨habout, hp⟩ := hpend x hx
        have hblk : blk = x := habout
        rw [hblk] at hmem
        exact (h.waiting x hmem).elim hp.fresh.1 hp.fresh.2
      refine { h with waiting := ?_, orderly := ?_, pending := ?_ }
      · exact fun x hx => h.waiting x (List.mem_filter.mp hx).1
      · exact ⟨fun x hx => absurd hx (hnone x), hord⟩
      · exact fun x hx => absurd hx (hnone x)
    · obtain rfl := Option.some.inj hrun
      exact { h with orderly := hord, pending := fun x hx => (hpend x hx).2 }
  · rename_i prop rest htasks
    obtain ⟨hord, hpend⟩ := h.pop htasks (fun _ => nofun)
    obtain rfl := Option.some.inj hrun
    split
    · rename_i hup
      simp only [Bool.and_eq_true, decide_eq_true_eq] at hup
      have hd := h.wellFormed.dag.delivered_of_height (Nat.zero_lt_of_lt hup.2)
      have hon := (h.wellFormed.dag.checkAncestry_iff h.wellFormed.hqcDelivered hd).mp hup.1
      have hlt := hup.2
      rw [h.wellFormed.dag.height_eq h.delivered, h.wellFormed.dag.height_eq hd] at hlt
      refine { h with
        delivered := hd, onChain := hon, orderly := hord, below := ?_
        pending := fun x hx => (hpend x hx).2 }
      exact fun x hx hj => (h.below x hx hj).trans (Nat.le_of_lt hlt)
    · exact { h with orderly := hord, pending := fun x hx => (hpend x hx).2 }
  · rename_i prop rest htasks
    obtain rfl := Option.some.inj hrun
    have hord := h.orderly
    rw [htasks] at hord
    have hp := h.pending prop.blk (by rw [htasks]; rfl)
    have hnone (x : H) : pendingOwn rest ≠ some x := fun hx => hord.1 x hx
    refine { h with
      delivered := hp.delivered, onChain := hp.onChain, waiting := ?_, justify_le := ?_
      below := ?_, orderly := ⟨fun x hx => absurd hx (hnone x), hord.2⟩
      pending := fun x hx => absurd hx (hnone x) }
    · exact fun x hx => (h.waiting x hx).imp_right (List.mem_cons_of_mem _)
    · intro x hx
      rcases List.mem_cons.mp hx with rfl | hx
      · exact hp.justify_le
      · exact h.justify_le x hx
    · intro x hx hj
      rcases List.mem_cons.mp hx with rfl | hx
      · exact Nat.le_refl _
      · exact hp.above x hx hj
  · rename_i last vote rest htasks
    obtain ⟨hord, hpend⟩ := h.pop htasks (fun _ => nofun)
    obtain rfl := Option.some.inj hrun
    exact { h with orderly := hord, pending := fun x hx => (hpend x hx).2 }
  · rename_i props rest htasks
    obtain ⟨hord, hpend⟩ := h.pop htasks (fun _ => nofun)
    obtain rfl := Option.some.inj hrun
    exact { h with orderly := hord, pending := fun x hx => (hpend x hx).2 }
  · rename_i rest htasks
    obtain ⟨hord, hpend⟩ := h.pop htasks (fun _ => nofun)
    obtain rfl := Option.some.inj hrun
    exact { h with orderly := hord, pending := fun x hx => (hpend x hx).2 }

/-- A replica counts its own vote; if it is for an own block, that block may become `hqc`. -/
theorem voteSelf (h : nd.HighTail P) {ord : List H} {last : ReplicaID} {vote : Vote H Sig}
    {rest : List (Task H Sig)} (htasks : nd.tasks = .doVote last vote :: rest) :
    (({ nd with log := nd.log ++ [.doVote last vote] } : Replica H Sig).absorb ord rest
      (nd.core.onReceiveVote vote)).HighTail P := by
  obtain ⟨hord, hpend⟩ := h.pop htasks (fun _ => nofun)
  obtain ⟨ho, hown, habout, hhqc⟩ := Core.onReceiveVote_onward h.wellFormed vote
  have hlog : ({ nd with log := nd.log ++ [.doVote last vote] } : Replica H Sig).HighTail P :=
    { h with }
  apply hlog.absorb ho ord rest
  · intro _
    apply Orderly.append hown _ hord
    intro t ht x hx
    have hvote : vote.blkHash = x := (hpend x hx).1
    rw [← hvote]
    exact habout t ht
  · intro _ x hx
    rw [pendingOwn_append hown] at hx
    obtain ⟨hvote, hp⟩ := hpend x hx
    have hblk : vote.blkHash = x := hvote
    rcases ho.hqc with ⟨heq, _⟩ | ⟨_, hlt⟩
    · exact ⟨ho.delivered x hp.delivered, by rw [heq]; exact hp.onChain, by rw [heq]; exact hp.justify_le,
        hp.fresh, by rw [heq]; exact hp.above⟩
    · rcases hhqc with heq | heq
      · rw [heq] at hlt
        exact absurd hlt (Nat.lt_irrefl _)
      · rw [hblk] at heq
        rw [heq] at hlt
        refine ⟨ho.delivered x hp.delivered, by rw [heq]; exact .refl x, ?_, hp.fresh, ?_⟩
        · rw [heq]
          exact hp.justify_le.trans (Nat.le_of_lt hlt)
        · intro y hy hj
          have hle := h.justify_le y hy
          rw [hj, heq] at hle
          exact absurd hlt (Nat.not_lt.mpr hle)

/-- An own block on `hqc_tail` is new, and extends `hqc`. -/
theorem propose (h : nd.HighTail P) (hat : nd.atPacemaker = true) (ord : List H)
    (cmds : List UInt256) (extra : Bytes) :
    (nd.absorb ord nd.tasks (nd.core.onPropose P cmds nd.getParents extra)).HighTail P := by
  have hc := h.wellFormed
  have hnone := h.at_pacemaker hat
  rcases Core.onPropose_ends (R := .any H Sig) hc cmds nd.getParents extra rfl (fun _ => trivial)
    (fun _ _ _ => trivial) (fun _ _ _ => trivial) (fun _ _ _ _ => trivial) with ⟨hpar, _⟩ | he
  · rw [getParents, List.all_cons, h.delivered] at hpar
    cases hpar
  generalize nd.core.onPropose P cmds nd.getParents extra = res at he
  apply h.absorb (he.onward hc) ord
  · intro hexit
    cases he with
    | breach _ _ _ _ => cases hexit
    | fault _ _ => cases hexit
    | commit _ _ _ _ => cases hexit
    | @vote u outs extra' prop hsteps _ _ hafter =>
      obtain ⟨hcast, habout⟩ := Core.castVote_tasks (hsteps.wellFormed hc) prop
      obtain ⟨hown, _⟩ | ⟨_, hid, _, _, props, rfl, _⟩ := hafter
      · cases hown
      rw [← hsteps.stable.id] at hid
      dsimp only
      rw [List.append_assoc]
      apply Orderly.append hcast
      · intro t ht x hx
        obtain rfl : prop.blk = x := Option.some.inj hx
        exact habout hid t ht
      · have hrest : ∀ x, pendingOwn nd.tasks ≠ some x := by simp [hnone]
        exact ⟨fun x hx => absurd hx (hrest x), fun x hx => absurd hx (hrest x),
          fun x hx => absurd hx (hrest x), h.orderly⟩
  · intro hexit x hx
    cases he with
    | breach _ _ _ _ => cases hexit
    | fault _ _ => cases hexit
    | commit _ _ _ _ => cases hexit
    | @vote u outs extra' prop hsteps _ _ hafter =>
      have hwf := hsteps.wellFormed hc
      obtain ⟨hown, _⟩ | ⟨hown, _, hhqc, hgt, props, rfl, _⟩ := hafter
      · cases hown
      dsimp only at hx
      rw [List.append_assoc, pendingOwn_append (Core.castVote_tasks hwf prop).1] at hx
      obtain rfl : prop.blk = x := Option.some.inj hx
      have hd := hwf.dag.delivered_of_height (Nat.zero_lt_of_lt hgt)
      have hne : prop.blk ≠ P.genesisHash := by
        intro hgen
        rw [hgen, hwf.dag.height_genesis] at hgt
        omega
      have hdata := Option.some.inj hown
      have hcontent := P.content_eq hdata hne
      have hparent : P.parent prop.blk = some nd.hqcTail := by
        simp [Primitives.parent, hcontent, Core.proposedData, getParents]
      have hjust : P.justify prop.blk = nd.core.hqc.1 := by
        simp [Primitives.justify, hcontent, Core.proposedData, hc.hqcCert]
      have hdepth : P.depth prop.blk = P.depth nd.hqcTail + 1 :=
        depth_parent P.parent_genesis (hc.dag.onChain_genesis h.delivered) hparent
      have hcore : (u.castVote P prop).core.hqc = nd.core.hqc := by
        obtain ⟨o, _, hcast⟩ := Core.castVote_eq hwf prop
        rw [hcast, ← hhqc]
        cases o <;> rfl
      have hdel : (u.castVote P prop).core.delivered prop.blk = true := by
        obtain ⟨o, _, hcast⟩ := Core.castVote_eq hwf prop
        rw [hcast]
        cases o <;> exact hd
      have hlow (y : H) (hy : y ∈ nd.lastProposed) (hj : P.justify y = nd.core.hqc.1) :
          P.depth y < P.depth prop.blk := by
        rw [hdepth]
        exact Nat.lt_succ_of_le (h.below y hy hj)
      refine ⟨hdel, ?_, ?_, ⟨hne, fun hmem => ?_⟩, fun y hy hj => ?_⟩
      · rw [hcore]
        exact (OnChain.of_parent hparent).trans h.onChain
      · rw [hcore, hjust]
      · exact absurd (hlow _ hmem hjust) (Nat.lt_irrefl _)
      · rw [hcore] at hj
        exact Nat.le_of_lt (hlow y hy hj)

/-- Every event keeps the invariant when the proposals are made on `get_parents`. -/
theorem handle (h : nd.HighTail P) {e : Event H Sig} (hcond : nd.highTailed e = true)
    (hstep : nd.handle P e = some nd') : nd'.HighTail P := by
  have hc := h.wellFormed
  cases e with
  | fetch r src data =>
    simp only [Replica.handle, Option.ite_none_right_eq_some, Option.some.injEq] at hstep
    obtain ⟨hidle, rfl⟩ := hstep
    have htasks := (idle_iff.mp hidle).2
    have hg := (Core.addBlk_grows hc data).1
    have ho : nd.core.Onward P (.ok (nd.core.addBlk P data.fetched)) :=
      ⟨hg.wellFormed, hg.quiet.delivered, Or.inl ⟨hg.quiet.hqc, rfl⟩⟩
    have hnil : Orderly ([] : List (Task H Sig)) := trivial
    exact h.onward ho [] hnil (fun _ hx => nomatch hx) rfl rfl rfl htasks rfl
  | deliver r blk =>
    simp only [Replica.handle, Option.ite_none_right_eq_some, Bool.and_eq_true, Option.some.injEq]
      at hstep
    obtain ⟨⟨_, hdel⟩, rfl⟩ := hstep
    obtain ⟨hg, hout, htask, _⟩ := Core.deliver_grows hc hdel
    have ho : nd.core.Onward P (nd.core.onDeliverBlk blk) := by
      refine ⟨hg.wellFormed, hg.quiet.delivered, Or.inl ⟨hg.quiet.hqc, ?_⟩⟩
      rw [hout]
      rfl
    exact h.absorb_idle ho [] (by rw [htask]; rfl)
  | receiveProposal r src ord prop =>
    simp only [Replica.handle, Option.ite_none_right_eq_some, Option.some.injEq] at hstep
    obtain ⟨_, rfl⟩ := hstep
    have he := Core.onReceiveProposal_ends_any hc prop
    exact h.absorb_idle (he.onward hc) ord (he.pendingOwn hc)
  | receiveVote r ord vote =>
    simp only [Replica.handle, Option.ite_none_right_eq_some, Option.some.injEq] at hstep
    obtain ⟨_, rfl⟩ := hstep
    obtain ⟨ho, hown, _, _⟩ := Core.onReceiveVote_onward hc vote
    exact h.absorb_idle ho ord hown
  | receiveSlice r src hash slice =>
    simp only [Replica.handle, Option.ite_none_right_eq_some] at hstep
    obtain ⟨_, hstep⟩ := hstep
    split at hstep
    · obtain rfl := Option.some.inj hstep
      rcases Core.onReceiveSlice_eq (P := P) nd.core slice with hs | hs | ⟨_, _, sc, _, hs⟩
      · rw [hs]
        exact h.absorb_idle ⟨hc, fun _ hd => hd, Or.inl ⟨rfl, rfl⟩⟩ [] rfl
      · rw [hs]
        exact h.absorb_idle ⟨hc, fun _ hd => hd, Or.inl ⟨rfl, rfl⟩⟩ [] rfl
      · rw [hs]
        exact h.absorb_idle ⟨hc.with_shards sc, fun _ hd => hd, Or.inl ⟨rfl, rfl⟩⟩ [] rfl
    · obtain rfl := Option.some.inj hstep
      exact h
  | propose r ord cmds parents extra =>
    simp only [Replica.handle, Option.ite_none_right_eq_some, Bool.and_eq_true, Option.some.injEq]
      at hstep
    obtain ⟨⟨hat, _⟩, rfl⟩ := hstep
    have hpar : parents = nd.getParents := of_decide_eq_true hcond
    rw [hpar]
    exact h.propose hat ord cmds extra
  | asyncQcFinish r blk =>
    simp only [Replica.handle, Option.ite_none_right_eq_some, Bool.and_eq_true, Bool.or_eq_true,
      decide_eq_true_eq, Option.some.injEq] at hstep
    obtain ⟨⟨hat, hblk⟩, rfl⟩ := hstep
    refine { h with waiting := fun x hx => ?_ }
    rcases List.mem_cons.mp hx with rfl | hx
    · rwa [hc.dag.b0] at hblk
    · exact h.waiting x hx
  | runTask r ord toSelf =>
    simp only [Replica.handle] at hstep
    split at hstep
    · cases hstep
    cases toSelf with
    | false => exact h.runTask hstep
    | true =>
      rcases Replica.runTask_self hstep with hrun | ⟨last, vote, rest, htasks, rfl⟩
      · exact h.runTask hrun
      · exact h.voteSelf htasks

theorem init (P : Primitives H Sig) (dummy : QuorumCert H Sig) (replicas : List NetAddr)
    (listenAddr : NetAddr) (id : ReplicaID) :
    (Replica.init P dummy replicas listenAddr id).HighTail P := by
  have h := Core.start_started P id dummy replicas listenAddr
  refine ⟨h.wellFormed, h.wellFormed.dag.delivered_genesis, ?_, ?_, ?_, ?_, trivial, ?_⟩
  · change OnChain P.parent P.genesisHash ((Core.new P id dummy).start replicas listenAddr).hqc.1
    rw [h.hqc.1]
    exact .refl _
  · exact fun x hx => nomatch hx
  · exact fun x hx => nomatch hx
  · exact fun x hx => nomatch hx
  · exact fun x hx => nomatch hx

end HighTail

theorem Runs.highTail {dummy : QuorumCert H Sig} {replicas : List NetAddr} {listenAddr : NetAddr}
    {id : ReplicaID} (h : nd.Runs P dummy replicas listenAddr id fun nd e => nd.highTailed e = true) :
    nd.HighTail P :=
  h.invariant (.init P dummy replicas listenAddr id) fun _ _ _ h hcond hstep => h.handle hcond hstep

/-- Proposals extend their certificate: in every run of a replica, whatever its peers send,
`hqc_tail` is a delivered block on whose chain `hqc` lies, so a block that is made on `get_parents`
has the block that its certificate is for on its chain. -/
theorem proposal_extends_certificate {dummy : QuorumCert H Sig} {replicas : List NetAddr}
    {listenAddr : NetAddr} {id : ReplicaID}
    (h : nd.Runs P dummy replicas listenAddr id fun nd e => nd.highTailed e = true) :
    (∀ b ∈ nd.getParents, nd.core.delivered b = true ∧ OnChain P.parent b nd.core.hqc.1) ∧
      ∀ cmds extra b, P.hashBlock (nd.core.proposedData P cmds nd.getParents extra) = b →
        OnChain P.parent b (P.justify b) := by
  have hi := h.highTail
  constructor
  · intro b hb
    rw [List.mem_singleton.mp hb]
    exact ⟨hi.delivered, hi.onChain⟩
  · intro cmds extra b hb
    by_cases hgen : b = P.genesisHash
    · rw [hgen, P.justify_genesis]
      exact .refl _
    have hcontent := P.content_eq hb hgen
    have hparent : P.parent b = some nd.hqcTail := by
      simp [Primitives.parent, hcontent, Core.proposedData, getParents]
    have hjust : P.justify b = nd.core.hqc.1 := by
      simp [Primitives.justify, hcontent, Core.proposedData, hi.wellFormed.hqcCert]
    rw [hjust]
    exact (OnChain.of_parent hparent).trans hi.onChain

end Replica

namespace Concrete

/-- Replica 0 gets four blocks of a chain, and votes for each of them. -/
def tailRun : List (Event Nat Signature) :=
  [1, 2, 3, 4].flatMap fun h => adopt chainBlocks 3 0 h ++ offer chainBlocks 0 h

set_option maxRecDepth 100000 in
theorem tail_run :
    (Transition.runBy (Replica.handle (primitives chainBlocks []))
      (fun nd e => nd.highTailed e = true)
      (Replica.init (primitives chainBlocks []) noCert [10, 11, 12, 13] 10 0) tailRun).map
        (fun nd => (nd.getParents, nd.core.hqc.1)) = some ([4], 3) := by
  decide +kernel

theorem proposal_extends_certificate_chain : ∃ nd : Replica Nat Signature,
    nd.getParents = [4] ∧ nd.core.hqc.1 = 3 ∧ nd.core.delivered 4 = true ∧
      OnChain (primitives chainBlocks []).parent 4 3 := by
  obtain ⟨nd, hreach, hseen⟩ := Transition.runBy_map_reaches tail_run
  obtain ⟨hpar, hhqc⟩ := Prod.mk.inj hseen
  obtain ⟨hd, hon⟩ := (Replica.proposal_extends_certificate hreach).1 4
    (by rw [hpar]; exact List.mem_singleton_self 4)
  rw [hhqc] at hon
  exact ⟨nd, hpar, hhqc, hd, hon⟩

end Concrete
end LibHotStuff
