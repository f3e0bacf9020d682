import LibHotStuff.Proofs.Concrete
import LibHotStuff.Proofs.Start

namespace LibHotStuff

open Chain

variable {H Sig : Type} [DecidableEq H] {P : Primitives H Sig}

/-- The order of `(cmd_height, cmd_idx)`. -/
def Finality.Before (f g : Finality H) : Prop :=
  f.cmdHeight < g.cmdHeight ∨ f.cmdHeight = g.cmdHeight ∧ f.cmdIdx < g.cmdIdx

namespace Core

variable {c c' : Core H Sig} {outs log : List (Output H Sig)} {R : Rules H Sig}

/-- What has been executed: the chain of `b_exec`, in order, and its commands. -/
structure Executed (P : Primitives H Sig) (c : Core H Sig) (log : List (Output H Sig)) : Prop where
  log_eq : consensusLog log = (path P.parent (P.depth c.bExec) c.bExec).reverse
  decided : ∀ h, c.decided h = true ↔ h = P.genesisHash ∨ h ∈ consensusLog log
  ordered : (decideLog log).Pairwise Finality.Before
  below : ∀ f ∈ decideLog log, f.cmdHeight ≤ P.depth c.bExec

omit [DecidableEq H] in
/-- Calls that put out neither blocks nor commands. -/
theorem Executed.silent (h : c.Executed P log) (hexec : c'.bExec = c.bExec)
    (hdec : ∀ h, c'.decided h = c.decided h) (hcons : consensusLog outs = [])
    (hdecs : decideLog outs = []) : c'.Executed P (log ++ outs) where
  log_eq := by rw [consensusLog_append, hcons, List.append_nil, h.log_eq, hexec]
  decided x := by rw [hdec, consensusLog_append, hcons, List.append_nil, h.decided]
  ordered := by
    rw [decideLog_append, hdecs, List.append_nil]
    exact h.ordered
  below := by
    rw [decideLog_append, hdecs, List.append_nil, hexec]
    exact h.below

omit [DecidableEq H] in
theorem finalities_ordered (c : Core H Sig) (b : H) (cmds : List UInt256) :
    (c.finalities b cmds).Pairwise Finality.Before := by
  rw [finalities, List.pairwise_iff_getElem]
  intro i j hi hj hij
  simp only [List.getElem_mapIdx]
  exact Or.inr ⟨rfl, hij⟩

omit [DecidableEq H] in
theorem mem_finalities {c : Core H Sig} {b : H} {cmds : List UInt256} {f : Finality H}
    (h : f ∈ c.finalities b cmds) : f.cmdHeight = c.height b ∧ f.blkHash = b := by
  obtain ⟨i, _, rfl⟩ := List.mem_mapIdx.mp h
  exact ⟨rfl, rfl⟩

omit [DecidableEq H] in
/-- The queue of a commit: the blocks above `b_exec` up to the new one. -/
theorem CommitsTo.queue {nblk b : H} {r : Res H Sig} {done : List H}
    (hto : c.CommitsTo P nblk b r done) (hc : c.WellFormed P) :
    P.depth b = (c.height b - c.height c.bExec) + P.depth c.bExec ∧
      (path P.parent (c.height b - c.height c.bExec) b).reverse.Pairwise
        (fun x y => P.depth x < P.depth y) ∧
      ∀ x ∈ (path P.parent (c.height b - c.height c.bExec) b).reverse,
        c.height x = P.depth x ∧ P.depth c.bExec < P.depth x ∧ (c.storage x).isSome := by
  obtain ⟨hbd, hqd⟩ := hto.queue_delivered hc
  have hroot := hc.dag.onChain_genesis hbd
  have hdepth := depth_up P.parent_genesis hto.onExec hroot
  have hk := hc.dag.height_eq hbd
  have hk' := hc.dag.height_eq hc.execDelivered
  refine ⟨by rw [Primitives.depth, Primitives.depth]; omega, ?_, fun x hx => ?_⟩
  · rw [List.pairwise_reverse]
    exact path_pairwise P.parent_genesis hto.onExec hroot
  · obtain ⟨i, hi, hup⟩ := (mem_path hto.onExec).mp (List.mem_reverse.mp hx)
    have hxd := depth_up P.parent_genesis hup hroot
    refine ⟨hc.dag.height_eq (hqd x hx), by rw [Primitives.depth, Primitives.depth]; omega, ?_⟩
    obtain ⟨bx, hbx, _⟩ := stored_of_delivered (hqd x hx)
    rw [hbx]
    rfl

omit [DecidableEq H] in
theorem CommitsTo.queue_nodup {nblk b : H} {r : Res H Sig} {done : List H}
    (hto : c.CommitsTo P nblk b r done) (hc : c.WellFormed P) :
    ((path P.parent (c.height b - c.height c.bExec) b).reverse).Nodup :=
  (hto.queue hc).2.1.imp fun {x y} hlt he => by
    rw [he] at hlt
    omega

omit [DecidableEq H] in
/-- A whole commit moves `b_exec` and executes the blocks in between. -/
theorem CommitsTo.executed {nblk b : H} {r : Res H Sig} {done : List H}
    (hto : c.CommitsTo P nblk b r done) (hexit : r.exit = none) (hc : c.WellFormed P)
    (h : c.Executed P log) :
    ({ r.core with bExec := b } : Core H Sig).Executed P (log ++ r.outs) := by
  obtain ⟨hdepth, hpair, hmem⟩ := hto.queue hc
  have hdone := hto.committed.returned hexit
  have hcom := hto.committed
  have hnodup := hto.queue_nodup hc
  rw [hdone] at hcom
  generalize hq : (path P.parent (c.height b - c.height c.bExec) b).reverse = q at *
  have hdecs := hcom.decides hnodup
  have hnew : ∀ f ∈ decideLog r.outs, ∃ x ∈ q, f.cmdHeight = P.depth x := by
    intro f hf
    rw [hdecs] at hf
    obtain ⟨x, hx, hfx⟩ := List.mem_flatMap.mp hf
    exact ⟨x, hx, by rw [(mem_finalities hfx).1, (hmem x hx).1]⟩
  have hle : ∀ x ∈ q, P.depth x ≤ P.depth b := by
    intro x hx
    rw [← hq] at hx
    obtain ⟨i, _, hup⟩ := (mem_path hto.onExec).mp (List.mem_reverse.mp hx)
    have := depth_up P.parent_genesis hup (hc.dag.onChain_genesis (hto.queue_delivered hc).1)
    rw [Primitives.depth, Primitives.depth]
    omega
  refine ⟨?_, fun x => ?_, ?_, ?_⟩
  · rw [consensusLog_append, h.log_eq, hcom.log, ← hq, ← List.reverse_append, ← path_add hto.onExec,
      ← hdepth]
  · rw [consensusLog_append, hcom.log, List.mem_append, ← or_assoc, ← h.decided]
    change r.core.decided x = true ↔ _
    rw [hcom.decided]
    constructor
    · rintro (hx | ⟨hx, _⟩)
      · exact Or.inl hx
      · exact Or.inr hx
    · rintro (hx | hx)
      · exact Or.inl hx
      · exact Or.inr ⟨hx, (hmem x hx).2.2⟩
  · rw [decideLog_append, List.pairwise_append]
    refine ⟨h.ordered, ?_, fun f hf g hg => ?_⟩
    · rw [hdecs, List.pairwise_flatMap]
      refine ⟨fun x _ => finalities_ordered c x _, ?_⟩
      refine hpair.imp_of_mem fun {x y} hx hy hlt f hf g hg => Or.inl ?_
      rw [(mem_finalities hf).1, (mem_finalities hg).1, (hmem x hx).1, (hmem y hy).1]
      exact hlt
    · obtain ⟨x, hx, hgx⟩ := hnew g hg
      have hlow := h.below f hf
      have hhigh := (hmem x hx).2.1
      exact Or.inl (by omega)
  · intro f hf
    change f.cmdHeight ≤ P.depth b
    rw [decideLog_append, List.mem_append] at hf
    rcases hf with hf | hf
    · have := h.below f hf
      omega
    · obtain ⟨x, hx, hfx⟩ := hnew f hf
      rw [hfx]
      exact hle x hx

theorem PreMove.executed (hm : PreMove P R c outs c') (h : c.Executed P log) :
    c'.Executed P (log ++ outs) := by
  cases hm with
  | shards _ => exact h.silent rfl (fun _ => rfl) rfl rfl
  | slice _ _ => exact h.silent rfl (fun _ => rfl) rfl rfl
  | prepare _ hp =>
    have hexec := congrArg Core.bExec hp.rest
    refine h.silent hexec hp.decided ?_ ?_
    · rcases hp.outs_eq with ho | ho <;> rw [ho] <;> rfl
    · rcases hp.outs_eq with ho | ho <;> rw [ho] <;> rfl
  | propose hg _ _ _ => exact h.silent hg.quiet.bExec hg.quiet.decided rfl rfl

theorem Move.executed (hm : Move P R c outs c') (hc : c.WellFormed P) (h : c.Executed P log) :
    c'.Executed P (log ++ outs) := by
  cases hm with
  | pre hp => exact hp.executed h
  | commit hto _ hexit => exact hto.executed hexit hc h

theorem Steps.executed (hs : Steps (Move P R) c outs c') (hc : c.WellFormed P)
    (h : c.Executed P log) : c'.Executed P (log ++ outs) := by
  induction hs generalizing log with
  | nil => rwa [List.append_nil]
  | cons hm _ ih =>
    rw [← List.append_assoc]
    exact ih (hm.wellFormed hc) (hm.executed hc h)

/-- Nothing that is needed to execute and to decide pending blocks has changed. -/
structure KeepsPending (c c' : Core H Sig) : Prop where
  bExec : c'.bExec = c.bExec
  decided : ∀ h, c'.decided h = c.decided h
  futures : ∀ h x, c.futures h = some x → c'.futures h = some x
  shards : c.sc.Keeps c'.sc

omit [DecidableEq H] in
theorem KeepsPending.refl (c : Core H Sig) : c.KeepsPending c :=
  ⟨rfl, fun _ => rfl, fun _ _ h => h, .refl _⟩

omit [DecidableEq H] in
theorem KeepsPending.trans {c'' : Core H Sig} (h : c.KeepsPending c')
    (h' : c'.KeepsPending c'') : c.KeepsPending c'' :=
  ⟨h'.bExec.trans h.bExec, fun x => (h'.decided x).trans (h.decided x),
    fun x y hx => h'.futures x y (h.futures x y hx), h.shards.trans h'.shards⟩

theorem PreMove.keepsPending (hm : PreMove P R c outs c') : c.KeepsPending c' := by
  cases hm with
  | shards hk => exact ⟨rfl, fun _ => rfl, fun _ _ h => h, hk.keeps⟩
  | slice _ _ => exact .refl c
  | prepare _ hp =>
    have hexec := congrArg Core.bExec hp.rest
    have hsc := congrArg Core.sc hp.rest
    refine ⟨hexec, hp.decided, fun x y hx => ?_, by rw [hsc]; exact .refl _⟩
    rcases hp.futures with heq | ⟨input, _, hnone, _, heq⟩
    · rw [heq, hx]
    · rw [heq, Function.update_of_ne, hx]
      rintro rfl
      rw [hnone] at hx
      cases hx
  | propose hg _ _ _ =>
    refine ⟨hg.quiet.bExec, hg.quiet.decided, fun x y hx => by rw [hg.quiet.futures, hx], ?_⟩
    rw [hg.quiet.sc]
    exact .refl _

theorem Steps.keepsPending (hs : Steps (PreMove P R) c outs c') : c.KeepsPending c' := by
  induction hs with
  | nil => exact .refl _
  | cons hm _ ih => exact hm.keepsPending.trans ih

omit [DecidableEq H] in
/-- A commit that is cut short ends in a fault, not in an exception. -/
theorem CommitsTo.exit_ne_throw {nblk b : H} {r : Res H Sig} {done : List H}
    (hto : c.CommitsTo P nblk b r done) (hc : c.WellFormed P) {f : Fault} (hexit : r.exit = some f)
    (e : Error) : f ≠ .throw e := by
  rintro rfl
  obtain ⟨x, hx⟩ := hto.committed.exit _ hexit
  exact hc.futuresReturn x e hx

/-- Where a call returns, `castVote` has changed at most `vheight`. -/
theorem castVote_core (c : Core H Sig) (prop : Proposal H) :
    ∃ v, (c.castVote P prop).core = { c with vheight := v } := by
  unfold castVote
  split
  · exact ⟨c.vheight, rfl⟩
  · dsimp only
    split
    · exact ⟨_, rfl⟩
    · exact ⟨c.vheight, rfl⟩

omit [DecidableEq H] in
theorem WellFormed.with_vheight (hc : c.WellFormed P) (v : Nat) :
    ({ c with vheight := v } : Core H Sig).WellFormed P :=
  have hs : c.SameDag { c with vheight := v } := .of_storage rfl rfl
  { hc with dag := hs.dag hc.dag }

/-- A call for a proposal that returns, or throws "safety breached". -/
theorem Ends.executed {own : Option H} {r : Res H Sig}
    (he : Ends P R c own r) (hc : c.WellFormed P) (h : c.Executed P log)
    (hexit : r.exit = none ∨ r.exit = some (.throw .safetyBreached)) :
    r.core.WellFormed P ∧ r.core.Executed P (log ++ r.outs) := by
  cases he with
  | breach hs _ _ _ => exact ⟨hs.move.wellFormed hc, hs.move.executed hc h⟩
  | fault hs _ => exact ⟨hs.wellFormed hc, hs.executed hc h⟩
  | commit hs hto _ hf =>
    have hc' := hs.move.wellFormed hc
    simp only [Option.some.injEq, reduceCtorEq, false_or] at hexit
    exact absurd hexit (hto.exit_ne_throw hc' hf _)
  | @vote u _ _ prop hs _ _ _ =>
    have hc' := hs.wellFormed hc
    obtain ⟨v, hv⟩ := castVote_core (P := P) u prop
    have hex := hs.executed hc h
    rw [hv]
    exact ⟨hc'.with_vheight v, ⟨hex.log_eq, hex.decided, hex.ordered, hex.below⟩⟩

theorem Ends.breached {own : Option H} {r : Res H Sig}
    (he : Ends P R c own r) (hc : c.WellFormed P)
    (hexit : r.exit = some (.throw .safetyBreached)) : c.KeepsPending r.core := by
  cases he with
  | breach hs _ _ _ => exact hs.keepsPending
  | fault _ hf => exact absurd (Option.some.inj hexit) hf
  | commit hs hto _ hf =>
    have hc' := hs.move.wellFormed hc
    exact absurd (Option.some.inj hexit) (hto.exit_ne_throw hc' hf _)
  | vote => cases hexit

theorem onReceiveVote_executed (hc : c.WellFormed P) (h : c.Executed P log) (vote : Vote H Sig) :
    (c.onReceiveVote vote).core.WellFormed P ∧
      (c.onReceiveVote vote).core.Executed P (log ++ (c.onReceiveVote vote).outs) ∧
      (c.onReceiveVote vote).exit ≠ some (.throw .safetyBreached) := by
  have hcounts {c' : Core H Sig} (hk : c.Counts P vote c') (hqc : H × QuorumCert H Sig)
      {outs : List (Output H Sig)} (ho : outs = [] ∨ outs = [.onHqcUpdate]) :
      ({ c' with hqc := hqc } : Core H Sig).Executed P (log ++ outs) := by
    have hexec := congrArg Core.bExec hk.rest
    refine h.silent hexec hk.decided ?_ ?_
    · rcases ho with ho | ho <;> rw [ho] <;> rfl
    · rcases ho with ho | ho <;> rw [ho] <;> rfl
  rcases onReceiveVote_cases hc vote with hr | hr | ⟨c', hk, hr | hr | ⟨_, hqc, outs, hr, hcases⟩⟩
  · rw [hr]
    exact ⟨hc, h.silent rfl (fun _ => rfl) rfl rfl, by simp [Res.fail]⟩
  · rw [hr]
    exact ⟨hc, h.silent rfl (fun _ => rfl) rfl rfl, by simp [Res.ok]⟩
  · rw [hr]
    exact ⟨hk.wellFormed, hcounts hk c'.hqc (Or.inl rfl), by simp [Res.fail]⟩
  · rw [hr]
    exact ⟨hk.wellFormed, hcounts hk c'.hqc (Or.inl rfl), by simp [Res.ok]⟩
  · rw [hr]
    have hsame : c'.hqc = c.hqc := by
      have hq := congrArg Core.hqc hk.rest
      exact hq
    rcases hcases with ⟨rfl, ho⟩ | ⟨ho, hlt, hfst, hobj⟩
    · rw [← hsame]
      exact ⟨hk.wellFormed, hcounts hk c'.hqc (Or.inl ho), by simp⟩
    · refine ⟨hk.wellFormed.with_hqc ?_ (hobj.trans hfst.symm), hcounts hk hqc (Or.inr ho), by simp⟩
      rw [hfst, hk.sameDag.delivered, hk.delivered]

/-- A call that returns or throws "safety breached" extends what has been executed, and the
exception leaves what is pending. -/
theorem call_executed (hc : c.WellFormed P) (h : c.Executed P log) (i : Call H Sig)
    (hexit : (c.call P i).exit = none ∨ (c.call P i).exit = some (.throw .safetyBreached)) :
    (c.call P i).core.WellFormed P ∧ (c.call P i).core.Executed P (log ++ (c.call P i).outs) ∧
      ((c.call P i).exit = some (.throw .safetyBreached) → c.KeepsPending (c.call P i).core) := by
  cases i with
  | addBlk data =>
    have hg := (addBlk_grows hc data).1
    exact ⟨hg.wellFormed, h.silent hg.quiet.bExec hg.quiet.decided rfl rfl,
      fun hx => by cases hx⟩
  | onDeliverBlk blk =>
    have hfetched : (c.onDeliverBlk blk).exit ≠ some (.throw .qcBlockNotFetched) := by
      intro he
      rw [call, he] at hexit
      simp at hexit
    obtain ⟨hg, ho, _, _⟩ := onDeliverBlk_grows hc blk rfl hfetched
    refine ⟨hg.wellFormed, h.silent hg.quiet.bExec hg.quiet.decided ?_ ?_, fun _ => ?_⟩
    · exact congrArg consensusLog ho
    · exact congrArg decideLog ho
    · exact ⟨hg.quiet.bExec, hg.quiet.decided, fun x y hx => by rw [← hx, ← hg.quiet.futures]; rfl,
        by rw [call, hg.quiet.sc]; exact .refl _⟩
  | onReceiveProposal prop =>
    have he := onReceiveProposal_ends_any hc prop
    obtain ⟨hwf, hex⟩ := he.executed hc h hexit
    exact ⟨hwf, hex, he.breached hc⟩
  | onReceiveVote vote =>
    obtain ⟨hwf, hex, hne⟩ := onReceiveVote_executed hc h vote
    exact ⟨hwf, hex, fun hx => absurd hx hne⟩
  | onReceiveSlice slice =>
    rcases onReceiveSlice_eq (P := P) c slice with hr | hr | ⟨_, _, sc, _, hr⟩
    · rw [call, hr]
      exact ⟨hc, h.silent rfl (fun _ => rfl) rfl rfl, fun hx => by cases hx⟩
    · rw [call, hr] at hexit
      simp [Res.fail] at hexit
    · rw [call, hr]
      exact ⟨hc.with_shards sc, h.silent rfl (fun _ => rfl) rfl rfl, fun hx => by cases hx⟩
  | onPropose cmds parents extra =>
    rcases onPropose_ends (R := .any H Sig) hc cmds parents extra rfl (fun _ => trivial)
      (fun _ _ _ => trivial) (fun _ _ _ => trivial) (fun _ _ _ _ => trivial) with ⟨_, hx⟩ | he
    · rw [call, hx] at hexit
      simp at hexit
    · obtain ⟨hwf, hex⟩ := he.executed hc h hexit
      exact ⟨hwf, hex, he.breached hc⟩
  | setVoteDisabled f =>
    have hsd : c.SameDag { c with voteDisabled := f } := .of_storage rfl rfl
    exact ⟨{ hc with dag := hsd.dag hc.dag }, h.silent rfl (fun _ => rfl) rfl rfl,
      fun hx => by cases hx⟩

/-- So does a sequence of calls. -/
theorem calls_executed (hc : c.WellFormed P) (h : c.Executed P log) {is : List (Call H Sig)}
    {log' : List (Output H Sig)} (hrun : c.calls P log is = some (c', log')) :
    c'.WellFormed P ∧ c'.Executed P log' := by
  induction is generalizing c log with
  | nil =>
    rw [calls] at hrun
    obtain ⟨rfl, rfl⟩ := Prod.mk.inj (Option.some.inj hrun)
    exact ⟨hc, h⟩
  | cons i is ih =>
    rw [calls] at hrun
    split at hrun
    · rename_i hexit
      obtain ⟨hwf, hex, _⟩ := call_executed hc h i hexit
      exact ih hwf hex hrun
    · cases hrun

theorem Started.executed {id : ReplicaID} {total nmaj : Nat} {c : Core H Sig}
    (h : c.Started P id total nmaj) : c.Executed P [] := by
  have hwf := h.wellFormed
  refine ⟨?_, fun x => ?_, List.Pairwise.nil, fun f hf => by cases hf⟩
  · rw [h.bExec, P.depth_genesis]
    rfl
  · constructor
    · intro hx
      left
      by_contra hne
      have hd := hwf.decidedDelivered hx
      simp [delivered, h.others x hne] at hd
    · rintro (rfl | hx)
      · exact hwf.genesisDecided
      · cases hx

/-- The execution chain of one replica: the blocks given to `do_consensus` are a chain from
genesis to `b_exec`, they are the ones decided, and their commands are decided in order. A
"safety breached" exception leaves all of that, and what is pending. -/
theorem execution_chain (P : Primitives H Sig) (id : ReplicaID) (dummy : QuorumCert H Sig)
    (replicas : List NetAddr) (listenAddr : NetAddr) {is : List (Call H Sig)}
    (hrun : ((Core.new P id dummy).start replicas listenAddr).calls P [] is = some (c, log)) :
    (∀ i b, (consensusLog log)[i]? = some b →
      c.height b = i + 1 ∧ c.parent0 b = (P.genesisHash :: consensusLog log)[i]?) ∧
    (P.genesisHash :: consensusLog log).getLast? = some c.bExec ∧
    (∀ h, c.decided h = true ↔ h = P.genesisHash ∨ h ∈ consensusLog log) ∧
    (decideLog log).Pairwise Finality.Before ∧
    ∀ i, (c.call P i).exit = some (.throw .safetyBreached) →
      c.KeepsPending (c.call P i).core := by
  have hstart := start_started P id dummy replicas listenAddr
  obtain ⟨hwf, hex⟩ := calls_executed hstart.wellFormed hstart.executed hrun
  have hup := up_depth P.parent_genesis (hwf.dag.onChain_genesis hwf.execDelivered)
  have hlog := hex.log_eq
  have hlen := path_length hup
  change up P.parent (P.depth c.bExec) c.bExec = _ at hup
  change (path P.parent (P.depth c.bExec) c.bExec).length = P.depth c.bExec at hlen
  refine ⟨fun i b hb => ?_, ?_, hex.decided, hex.ordered, fun i hi =>
    (call_executed hwf hex i (Or.inr hi)).2.2 hi⟩
  · have hi : i < P.depth c.bExec := by
      have := (List.getElem?_eq_some_iff.mp hb).1
      rwa [hlog, List.length_reverse, hlen] at this
    rw [hlog] at hb ⊢
    rw [reverse_path_getElem? hup hi] at hb
    have hd := depth_up P.parent_genesis hb (hwf.dag.onChain_genesis hwf.execDelivered)
    have hbd := hwf.dag.delivered_onChain hwf.execDelivered ⟨_, hb⟩
    refine ⟨?_, ?_⟩
    · rw [hwf.dag.height_eq hbd, Primitives.depth]
      change _ = P.depth c.bExec at hd
      omega
    · rw [hwf.dag.parent0_eq hbd]
      have hpar : up P.parent (P.depth c.bExec - i) c.bExec = P.parent b := by
        rw [show P.depth c.bExec - i = (P.depth c.bExec - 1 - i) + 1 by omega, up_add, hb]
        change (P.parent b).bind (up P.parent 0) = P.parent b
        cases P.parent b <;> rfl
      rw [← hpar]
      cases i with
      | zero => simpa using hup
      | succ i =>
        rw [List.getElem?_cons_succ, reverse_path_getElem? hup (by omega)]
        congr 1
        omega
  · rw [hlog]
    cases hz : P.depth c.bExec with
    | zero =>
      rw [hz] at hup
      simpa [path] using hup.symm
    | succ d =>
      rw [hz, up_succ] at hup
      obtain ⟨p, hp, _⟩ := Option.bind_eq_some_iff.mp hup
      simp [path, hp, List.getLast?_cons]

end Core

namespace Concrete

/-- The calls of a replica that sees the chain of five blocks. -/
def chainCalls : List (Call Nat Signature) :=
  (List.range' 1 5).flatMap fun h =>
    (chainBlocks[h - 1]?.toList.map .addBlk) ++
      [.onDeliverBlk h, .onReceiveProposal (offered chainBlocks h)]

set_option maxRecDepth 100000 in
theorem calls_run :
    (((Core.new (primitives chainBlocks []) 2 noCert).start [10, 11, 12, 13] 12).calls
      (primitives chainBlocks []) [] chainCalls).map (fun x => consensusLog x.2) =
        some [1, 2] := by
  decide +kernel

theorem execution_chain_two : ∃ (c : Core Nat Signature) (log : List (Output Nat Signature)),
    consensusLog log = [1, 2] ∧ (0 :: consensusLog log).getLast? = some c.bExec := by
  obtain ⟨⟨c, log⟩, hrun, hlog⟩ := Option.map_eq_some_iff.mp calls_run
  exact ⟨c, log, hlog, (Core.execution_chain (primitives chainBlocks []) 2 noCert [10, 11, 12, 13]
    12 hrun).2.1⟩

end Concrete
end LibHotStuff
