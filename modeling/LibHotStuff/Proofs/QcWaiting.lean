import LibHotStuff.Model.QcWaiting
import LibHotStuff.Proofs.CommitLoop

namespace LibHotStuff

open Chain

variable {H Sig : Type} [DecidableEq H] {P : Primitives H Sig}

namespace Core

variable {c c' : Core H Sig}

omit [DecidableEq H] in
theorem SameBlocks.voters (h : c.SameBlocks c') (x : H) : c'.voters x = c.voters x := by
  have heq : (c'.storage x).map (fun b => b.undecided.voted) =
      (c.storage x).map fun b => b.undecided.voted := by
    have hblock := congrArg (Option.map Block.voted) (h.blocks x)
    rwa [Option.map_map, Option.map_map] at hblock
  exact congrArg (Option.getD · []) heq

/-- The only exception of a received proposal is "safety breached". -/
theorem update_breaches (hc : c.WellFormed P) {nblk : H} (hd : c.delivered nblk = true) {e : Error}
    (hthrow : (c.update P nblk).exit = some (.throw e)) : c.breaches nblk = true := by
  obtain ⟨c', outs, hprep, ⟨_, h⟩ | ⟨f, hfails, h⟩ | ⟨b, x, hdec, hup, hne, h⟩ |
    ⟨_, r, _, hto, ⟨_, h⟩ | ⟨f, hexit, h⟩⟩⟩ := update_steps hc hd
  · rw [h] at hthrow
    cases hthrow
  · rw [h] at hthrow
    exact absurd (Option.some.inj hthrow) (hfails.decode.ne_throw e)
  · have hexec : c'.bExec = c.bExec := by rw [hprep.rest]
    have hwalk := hdec.commitWalk_eq (hprep.wellFormed hc) hup
    rw [commitWalk_congr hprep.storage hexec] at hwalk
    rw [breaches, hwalk, ← hexec]
    simpa using hne
  · rw [h] at hthrow
    cases hthrow
  · rw [h] at hthrow
    obtain rfl : f = .throw e := Option.some.inj hthrow
    obtain ⟨x, hx⟩ := hto.committed.exit _ hexit
    exact absurd hx ((hprep.wellFormed hc).futuresReturn x e)

/-- A received proposal that returns finishes the certificate of its block; one that throws has
found that safety is breached. -/
theorem onReceiveProposal_finishes (hc : c.WellFormed P) {prop : Proposal H}
    (hid : prop.proposer ≠ c.id) (hd : c.delivered prop.blk = true) :
    ((c.onReceiveProposal P prop).exit = none →
      .onQcFinish (P.justify prop.blk) ∈ (c.onReceiveProposal P prop).tasks) ∧
    ∀ e, (c.onReceiveProposal P prop).exit = some (.throw e) → c.breaches prop.blk = true := by
  obtain ⟨sc, _, _, hslice | hslice⟩ :=
    onReceiveSlice_steps (P := P) (R := .any H Sig) c (s := prop.slice) trivial
  swap
  · obtain h | h := onReceiveProposal_fault hslice
    all_goals
      rw [h]
      simp [Res.fail]
  obtain h | h := onReceiveProposal_eq hslice
  · rw [h]
    simp [Res.fail]
  have hwf := hc.with_shards (P := P) sc
  have hd₀ : ({ c with sc := sc } : Core H Sig).delivered prop.blk = true := hd
  have hid₀ : prop.proposer ≠ ({ c with sc := sc } : Core H Sig).id := hid
  have hbreaches : ({ c with sc := sc } : Core H Sig).breaches prop.blk = c.breaches prop.blk := by
    rw [breaches, breaches,
      commitWalk_congr (show ({ c with sc := sc } : Core H Sig).storage = c.storage from rfl) rfl]
  rw [h, if_neg hid₀, if_pos hd₀, ← hbreaches]
  generalize ({ c with sc := sc } : Core H Sig) = c₀ at hwf hd₀ hid₀
  have hup := updateRaising_handsOver (fun _ => none) hwf hd₀
  rw [commitRaising_none, ← update_eq_by] at hup
  have hsame := update_sameBlocks (P := P) hd₀
  cases hexit : (c₀.update P prop.blk).exit with
  | some f =>
    rw [Res.bind_some hexit]
    refine ⟨fun he => ?_, fun e he => ?_⟩
    · rw [hexit] at he
      cases he
    · exact update_breaches hwf hd₀ he
  | none =>
    have hid' : prop.proposer ≠ (c₀.update P prop.blk).core.id := by rwa [hsame.id]
    have hqc : (c₀.update P prop.blk).core.qcRef prop.blk = some (P.justify prop.blk) :=
      hup.wellFormed.dag.qcRef_eq (by rwa [hsame.sameDag.delivered])
    obtain ⟨_, _, hvote⟩ := castVote_eq hup.wellFormed prop
    have hexit' := (castVote_exit hup.wellFormed prop).2
    rw [Res.bind_none hexit]
    refine ⟨fun _ => ?_, fun e he => ?_⟩
    · dsimp only
      rw [hvote, finishTasks, if_neg hid', hqc]
      simp
    · dsimp only at he
      rw [hexit'] at he
      cases he

/-- What a call tells of certificates. -/
structure Tells (c : Core H Sig) (r : Res H Sig) : Prop where
  config : r.core.config = c.config
  learns : ∀ blk, QcWaiting.voted r.core blk = true →
    QcWaiting.voted c blk = true ∨ r.exit = none ∧ .onQcFinish blk ∈ r.tasks

omit [DecidableEq H] in
theorem Tells.of_voters {r : Res H Sig} (hconfig : r.core.config = c.config)
    (hvoters : ∀ x, r.core.voters x = c.voters x) : c.Tells r := by
  refine ⟨hconfig, fun blk h => Or.inl ?_⟩
  rwa [QcWaiting.voted, hconfig, hvoters] at h

/-- The vote that completes the quorum finishes the certificate. -/
theorem onReceiveVote_tells (hc : c.WellFormed P) {vote : Vote H Sig}
    (hcert : vote.cert.objHash = vote.blkHash) : c.Tells (c.onReceiveVote vote) := by
  have hsame (exit : Option Fault) : c.Tells ⟨c, [], [], exit⟩ := .of_voters rfl fun _ => rfl
  unfold onReceiveVote
  split
  · exact hsame _
  rename_i b hb
  have hvot : c.voters vote.blkHash = b.voted := by simp [voters, hb]
  split
  · exact hsame _
  rename_i hd
  split
  · exact hsame _
  rename_i hfew
  split
  · exact hsame _
  rename_i hfresh
  have hqc₀ : (b.selfQc.getD (.create c.config vote.blkHash)).objHash = vote.blkHash := by
    cases hq : b.selfQc with
    | none => rfl
    | some q => exact hc.selfQcHash hb hq
  dsimp only
  cases hadd : (b.selfQc.getD (.create c.config vote.blkHash)).addPart vote.voter vote.cert with
  | error e =>
    exfalso
    unfold QuorumCert.addPart at hadd
    rw [hqc₀, hcert, if_neg (not_not_intro rfl)] at hadd
    split at hadd <;> cases hadd
  | ok qc =>
    have hqc : qc.objHash = vote.blkHash := (QuorumCert_addPart_hash hadd).trans hqc₀
    have hcounts := modify_counts hc hb (by simpa using hd) (by omega) hfresh hqc
    dsimp only
    generalize (c.modify vote.blkHash fun b =>
      { b with voted := vote.voter :: b.voted, selfQc := some qc }) = c' at hcounts ⊢
    have hconfig : c'.config = c.config := by rw [hcounts.rest]
    have learns {blk : H} (hv : QcWaiting.voted c' blk = true) :
        QcWaiting.voted c blk = true ∨
          blk = vote.blkHash ∧ c.config.nmajority ≤ b.voted.length + 1 := by
      rw [QcWaiting.voted, decide_eq_true_eq, hconfig, hcounts.voters] at hv
      split at hv
      · rename_i hblk
        subst hblk
        rw [hvot] at hv
        exact Or.inr ⟨rfl, hv⟩
      · exact Or.inl (decide_eq_true hv)
    split
    · unfold updateHqc
      split
      · refine ⟨hconfig, fun blk hv => ?_⟩
        obtain hold | ⟨rfl, _⟩ := learns hv
        · exact Or.inl hold
        · exact Or.inr ⟨rfl, List.mem_singleton_self _⟩
      · refine ⟨hconfig, fun blk hv => ?_⟩
        obtain hold | ⟨rfl, _⟩ := learns hv
        · exact Or.inl hold
        · exact Or.inr ⟨rfl, List.mem_singleton_self _⟩
    · rename_i hmaj
      refine ⟨hconfig, fun blk hv => ?_⟩
      obtain hold | ⟨_, hge⟩ := learns hv
      · exact Or.inl hold
      · rw [hconfig] at hmaj
        omega

theorem onPropose_tells (hc : c.WellFormed P) (cmds : List UInt256) {parents : List H}
    (extra : Bytes) (hpar : parents.all c.delivered = true) :
    c.Tells (c.onPropose P cmds parents extra) := by
  unfold onPropose
  split
  · exact .of_voters rfl fun _ => rfl
  rename_i p₀ hp₀
  generalize hbnew : P.hashBlock (c.proposedData P cmds parents extra) = bnew
  obtain ⟨_, hok, _⟩ := beforeOwnUpdate_eq hc hp₀ hpar hbnew
  obtain ⟨hgrow, hd⟩ := beforeOwnUpdate_grows hc hp₀ hpar hbnew
  dsimp only
  rw [hok, Res.bind_none rfl]
  have hsame := (update_sameBlocks (P := P) hd).bind fun u =>
    sendProposal_sameBlocks (P := P) u cmds bnew
  refine .of_voters (hsame.config.trans hgrow.quiet.config) fun x => ?_
  exact (hsame.voters x).trans (hgrow.quiet.voters x)

/-- A call that the handlers make. -/
theorem call_tells (hc : c.WellFormed P) {i : Call H Sig} (hi : c.permits P i = true) :
    c.Tells (c.call P i) := by
  cases i with
  | addBlk data =>
    have hquiet := (addBlk_grows hc data).1.quiet
    exact .of_voters hquiet.config hquiet.voters
  | onDeliverBlk blk =>
    have hquiet := (deliver_grows hc hi).1.quiet
    exact .of_voters hquiet.config hquiet.voters
  | onReceiveProposal prop =>
    have hsame := onReceiveProposal_sameBlocks (P := P) c prop
    exact .of_voters hsame.config hsame.voters
  | onReceiveVote vote =>
    simp only [permits, Bool.and_eq_true, decide_eq_true_eq] at hi
    exact onReceiveVote_tells hc hi.1
  | onReceiveSlice s =>
    have hsame := onReceiveSlice_sameBlocks (P := P) c s
    exact .of_voters hsame.config hsame.voters
  | onPropose cmds parents extra => exact onPropose_tells hc cmds extra hi
  | setVoteDisabled f => cases hi

end Core

namespace QcWaiting

variable {s s' : QcWaiting H Sig}

/-- What no step may do: `async_qc_finish` for a block that is known to be certified by a proposal
only, or with an entry that someone else has rejected; a rejection of a pending promise that someone
else holds; a proposal with a pending entry for its certificate on which `update` throws. -/
def wakes (s : QcWaiting H Sig) : QcEvent H Sig → Bool
  | .call (.onReceiveProposal prop) => !s.core.breaches prop.blk ||
      (s.core.qcRef prop.blk).all fun blk => (s.waiting blk).all fun pm => !s.promises.isPending pm
  | .asyncQcFinish waiter blk => voted s.core blk ||
      match s.waiting blk with
      | some pm => !s.promises.isRejected pm || decide ((waiter, pm) ∈ s.rejections)
      | none => decide (blk ∉ s.certified) || decide (blk ∈ s.todo)
  | .reject waiter pm => !s.promises.isPending pm ||
      s.returned.all fun x => decide (x.2.2 = pm → x.1 = waiter)
  | _ => true

/-- What holds of the promises between two steps. -/
structure Waits (P : Primitives H Sig) (s : QcWaiting H Sig) : Prop where
  wellFormed : s.core.WellFormed P
  goal : ∀ blk pm, s.waiting blk = some pm → s.promises.goal pm = some blk
  returned : ∀ w blk pm, (w, blk, pm) ∈ s.returned → s.promises.isFulfilled pm = true ∨
    s.promises.isRejected pm = true ∧ (w, pm) ∈ s.rejections ∨
      s.promises.isPending pm = true ∧ s.waiting blk = some pm
  known : ∀ blk pm, s.waiting blk = some pm → s.promises.isPending pm = true →
    s.known blk = true → blk ∈ s.todo
  finishing : ∀ blk ∈ s.finishing, ∃ pm, s.waiting blk = some pm ∧ s.promises.isPending pm = false
  nested : s.finishing.Nodup

/-- Nothing is lost: a promise that was returned for a block that is known to be certified has been
fulfilled or rejected by the one who holds it, but for the call of `on_qc_finish` that is to come. -/
theorem Waits.woken (h : s.Waits P) {w pm : Nat} {blk : H} (hret : (w, blk, pm) ∈ s.returned)
    (hknown : s.known blk = true) (htodo : blk ∉ s.todo) (hrej : (w, pm) ∉ s.rejections) :
    s.promises.isFulfilled pm = true := by
  obtain hful | ⟨_, hmem⟩ | ⟨hpend, hwait⟩ := h.returned w blk pm hret
  · exact hful
  · exact absurd hmem hrej
  · exact absurd (h.known blk pm hwait hpend hknown) htodo

/-- `on_qc_finish` fulfils the promise of its block. -/
theorem Waits.onQcFinish (h : s.Waits P) (hstep : s.onQcFinish = some s') : s'.Waits P := by
  unfold QcWaiting.onQcFinish at hstep
  split at hstep
  · cases hstep
  rename_i blk rest htodo
  split at hstep
  · rename_i hnone
    obtain rfl := Option.some.inj hstep
    refine { h with known := fun b pm hwait hpend hknown => ?_ }
    have hmem := h.known b pm hwait hpend hknown
    rw [htodo] at hmem
    obtain rfl | hrest := List.mem_cons.mp hmem
    · rw [hnone] at hwait
      cases hwait
    · exact hrest
  rename_i pm hwait
  split at hstep
  · cases hstep
  rename_i hnested
  obtain rfl := Option.some.inj hstep
  refine ⟨h.wellFormed, fun b p hb => ?_, fun w b p hret => ?_, fun b p hb hpend hknown => ?_,
    fun b hb => ?_, List.nodup_cons.mpr ⟨hnested, h.nested⟩⟩
  · rw [Promises.goal_resolve]
    exact h.goal b p hb
  · dsimp only
    rw [Promises.isFulfilled_resolve, Promises.isRejected_resolve, Promises.isPending_resolve]
    obtain hful | hrej | ⟨hpend, hb⟩ := h.returned w b p hret
    · exact Or.inl (by simp [hful])
    · exact Or.inr (Or.inl hrej)
    · by_cases hp : p = pm
      · subst hp
        exact Or.inl (by simp [hpend])
      · exact Or.inr (Or.inr ⟨by simp [hpend, hp], hb⟩)
  · dsimp only at hb hpend
    rw [Promises.isPending_resolve, Bool.and_eq_true, decide_eq_true_eq] at hpend
    have hmem := h.known b p hb hpend.1 hknown
    rw [htodo] at hmem
    obtain rfl | hrest := List.mem_cons.mp hmem
    · exact absurd (Option.some.inj (hb.symm.trans hwait)) hpend.2
    · exact hrest
  · obtain rfl | hb := List.mem_cons.mp hb
    · exact ⟨pm, hwait, by simp [Promises.isPending_resolve]⟩
    · obtain ⟨p, hp, hset⟩ := h.finishing b hb
      exact ⟨p, hp, by simp [Promises.isPending_resolve, hset]⟩

/-- `on_qc_finish` erases an entry that is not pending any more. -/
theorem Waits.erase (h : s.Waits P) (hstep : s.erase = some s') : s'.Waits P := by
  unfold QcWaiting.erase at hstep
  split at hstep
  · cases hstep
  rename_i blk rest hfin
  obtain rfl := Option.some.inj hstep
  have hnodup := h.nested
  rw [hfin] at hnodup
  obtain ⟨hblk, hnodup⟩ := List.nodup_cons.mp hnodup
  obtain ⟨p₀, hp₀, hset⟩ := h.finishing blk (by rw [hfin]; exact List.mem_cons_self)
  have hkept {b : H} {p : Nat} (hb : Function.update s.waiting blk none b = some p) :
      s.waiting b = some p := by
    by_cases hbb : b = blk
    · subst hbb
      rw [Function.update_self] at hb
      cases hb
    · rwa [Function.update_of_ne hbb] at hb
  refine ⟨h.wellFormed, fun b p hb => h.goal b p (hkept hb), fun w b p hret => ?_,
    fun b p hb => h.known b p (hkept hb), fun b hb => ?_, hnodup⟩
  · obtain hful | hrej | ⟨hpend, hb⟩ := h.returned w b p hret
    · exact Or.inl hful
    · exact Or.inr (Or.inl hrej)
    · refine Or.inr (Or.inr ⟨hpend, ?_⟩)
      have hne : b ≠ blk := by
        rintro rfl
        rw [Option.some.inj (hb.symm.trans hp₀), hset] at hpend
        cases hpend
      exact (Function.update_of_ne hne _ _).trans hb
  · obtain ⟨p, hp, hpset⟩ := h.finishing b (by rw [hfin]; exact List.mem_cons_of_mem _ hb)
    have hne : b ≠ blk := by
      rintro rfl
      exact hblk hb
    exact ⟨p, (Function.update_of_ne hne _ _).trans hp, hpset⟩

/-- A rejection that only concerns the one who rejects. -/
theorem Waits.reject (h : s.Waits P) {waiter pm : Nat} (hwakes : s.wakes (.reject waiter pm) = true) :
    Waits P { s with
      promises := s.promises.reject pm, rejections := (waiter, pm) :: s.rejections } := by
  refine ⟨h.wellFormed, fun b p hb => ?_, fun w b p hret => ?_, fun b p hb hpend hknown => ?_,
    fun b hb => ?_, h.nested⟩
  · rw [Promises.goal_reject]
    exact h.goal b p hb
  · dsimp only
    rw [Promises.isFulfilled_reject, Promises.isRejected_reject, Promises.isPending_reject]
    obtain hful | ⟨hrej, hmem⟩ | ⟨hpend, hb⟩ := h.returned w b p hret
    · exact Or.inl hful
    · exact Or.inr (Or.inl ⟨by simp [hrej], List.mem_cons_of_mem _ hmem⟩)
    · right
      by_cases hp : p = pm
      · subst hp
        simp only [wakes, hpend, Bool.not_true, Bool.false_or, List.all_eq_true,
          decide_eq_true_eq] at hwakes
        obtain rfl := hwakes _ hret rfl
        exact Or.inl ⟨by simp [hpend], List.mem_cons_self⟩
      · exact Or.inr ⟨by simp [hpend, hp], hb⟩
  · dsimp only at hb hpend
    rw [Promises.isPending_reject, Bool.and_eq_true] at hpend
    exact h.known b p hb hpend.1 hknown
  · obtain ⟨p, hp, hset⟩ := h.finishing b hb
    exact ⟨p, hp, by simp [Promises.isPending_reject, hset]⟩

/-- What has been returned goes on to hold when a promise is added. -/
theorem Waits.returned_append (h : s.Waits P) (p : Promise H Unit Unit) {w blk pm}
    (hret : (w, blk, pm) ∈ s.returned) : pm < s.promises.length ∧
      (Promises.isFulfilled (s.promises ++ [p]) pm = true ∨
        Promises.isRejected (s.promises ++ [p]) pm = true ∧ (w, pm) ∈ s.rejections ∨
          Promises.isPending (s.promises ++ [p]) pm = true ∧ s.waiting blk = some pm) := by
  have hcases := h.returned w blk pm hret
  have hlt : pm < s.promises.length := by
    apply Promises.lt_of_state
    obtain hful | ⟨hrej, _⟩ | ⟨hpend, _⟩ := hcases
    · exact Or.inr (Or.inl hful)
    · exact Or.inr (Or.inr hrej)
    · exact Or.inl hpend
  rw [Promises.isFulfilled_append hlt, Promises.isRejected_append hlt,
    Promises.isPending_append hlt]
  exact ⟨hlt, hcases⟩

/-- `async_qc_finish` returns a promise that can still be fulfilled. -/
theorem Waits.asyncQcFinish (h : s.Waits P) {waiter : Nat} {blk : H}
    (hwakes : s.wakes (.asyncQcFinish waiter blk) = true) : (s.asyncQcFinish waiter blk).Waits P := by
  have hlt {b : H} {p : Nat} (hb : s.waiting b = some p) : p < s.promises.length :=
    Promises.lt_of_goal (h.goal b p hb)
  unfold QcWaiting.asyncQcFinish
  dsimp only
  split
  · refine ⟨h.wellFormed, fun b p hb => Promises.goal_append (h.goal b p hb) _,
      fun w b p hret => ?_, fun b p hb hpend hknown => ?_, fun b hb => ?_, h.nested⟩
    · obtain heq | hret := List.mem_cons.mp hret
      · obtain ⟨_, heq⟩ := Prod.mk.inj heq
        obtain ⟨_, rfl⟩ := Prod.mk.inj heq
        exact Or.inl (by simp [Promises.isFulfilled, Promises.state_new])
      · exact (h.returned_append _ hret).2
    · have hold : Promises.isPending (s.promises ++ [⟨blk, .fulfilled ()⟩]) p = true := hpend
      rw [Promises.isPending_append (hlt hb)] at hold
      exact h.known b p hb hold hknown
    · obtain ⟨p, hp, hset⟩ := h.finishing b hb
      exact ⟨p, hp, (Promises.isPending_append (hlt hp) _).trans hset⟩
  rename_i hfew
  have hfew' : voted s.core blk = false := by simpa using hfew
  split
  · rename_i pm hwait
    simp only [wakes, hfew', hwait, Bool.false_or, Bool.or_eq_true, Bool.not_eq_true',
      decide_eq_true_eq] at hwakes
    refine { h with returned := fun w b p hret => ?_ }
    obtain heq | hret := List.mem_cons.mp hret
    · obtain ⟨rfl, hrest⟩ := Prod.mk.inj heq
      obtain ⟨rfl, rfl⟩ := Prod.mk.inj hrest
      obtain hpend | hful | hrej := Promises.state_cases (hlt hwait)
      · exact Or.inr (Or.inr ⟨hpend, hwait⟩)
      · exact Or.inl hful
      · rw [hrej] at hwakes
        exact Or.inr (Or.inl ⟨hrej, hwakes.resolve_left (by simp)⟩)
    · exact h.returned w b p hret
  · rename_i hnone
    simp only [wakes, hfew', hnone, Bool.false_or, Bool.or_eq_true, decide_eq_true_eq] at hwakes
    have hother {b : H} (hb : b ≠ blk) :
        Function.update s.waiting blk (some s.promises.length) b = s.waiting b :=
      Function.update_of_ne hb _ _
    refine ⟨h.wellFormed, fun b p hb => ?_, fun w b p hret => ?_, fun b p hb hpend hknown => ?_,
      fun b hb => ?_, h.nested⟩
    · dsimp only at hb
      by_cases hbb : b = blk
      · subst hbb
        rw [Function.update_self] at hb
        rw [← Option.some.inj hb]
        exact Promises.goal_new _ _
      · rw [hother hbb] at hb
        exact Promises.goal_append (h.goal b p hb) _
    · obtain heq | hret := List.mem_cons.mp hret
      · obtain ⟨_, heq⟩ := Prod.mk.inj heq
        obtain ⟨rfl, rfl⟩ := Prod.mk.inj heq
        refine Or.inr (Or.inr ⟨?_, Function.update_self _ _ _⟩)
        simp [Promises.isPending, Promises.state_new]
      · obtain ⟨_, hful | hrej | ⟨hpend, hb⟩⟩ := h.returned_append ⟨blk, .pending []⟩ hret
        · exact Or.inl hful
        · exact Or.inr (Or.inl hrej)
        · refine Or.inr (Or.inr ⟨hpend, ?_⟩)
          have hne : b ≠ blk := by
            rintro rfl
            rw [hnone] at hb
            cases hb
          exact (hother hne).trans hb
    · dsimp only at hb hpend
      by_cases hbb : b = blk
      · subst hbb
        have hcert : b ∈ s.certified := by
          have hk : s.known b = true := hknown
          simpa [QcWaiting.known, hfew'] using hk
        exact hwakes.resolve_left (not_not_intro hcert)
      · rw [hother hbb] at hb
        rw [Promises.isPending_append (hlt hb)] at hpend
        exact h.known b p hb hpend hknown
    · obtain ⟨p, hp, hset⟩ := h.finishing b hb
      have hne : b ≠ blk := by
        rintro rfl
        rw [hnone] at hp
        cases hp
      exact ⟨p, (hother hne).trans hp, (Promises.isPending_append (hlt hp) _).trans hset⟩

/-- A call of the core: what it learns of certificates it goes on to finish. -/
theorem Waits.call (h : s.Waits P) {i : Call H Sig} (hwakes : s.wakes (.call i) = true)
    (hstep : s.call P i = some s') : s'.Waits P := by
  simp only [QcWaiting.call, Option.ite_none_right_eq_some, Bool.and_eq_true,
    List.isEmpty_iff] at hstep
  obtain ⟨⟨htodo, hi⟩, hstep⟩ := hstep
  have hwf := Core.call_wellFormed h.wellFormed hi
  have htells := Core.call_tells h.wellFormed hi
  -- before the call no pending entry is known to be certified
  have hunknown {b : H} {p : Nat} (hb : s.waiting b = some p)
      (hpend : s.promises.isPending p = true) : s.known b = false := by
    cases hk : s.known b with
    | false => rfl
    | true =>
      have hmem := h.known b p hb hpend hk
      rw [htodo] at hmem
      cases hmem
  have learned {b : H} {p : Nat} (hb : s.waiting b = some p) (hpend : s.promises.isPending p = true)
      (hk : voted (s.core.call P i).core b = true ∨
        b ∈ (certifies s.core i).toList ++ s.certified) :
      (s.core.call P i).exit = none ∧ .onQcFinish b ∈ (s.core.call P i).tasks ∨
        certifies s.core i = some b := by
    have hold := hunknown hb hpend
    simp only [QcWaiting.known, Bool.or_eq_false_iff, decide_eq_false_iff_not] at hold
    obtain hv | hc := hk
    · obtain hv | hnew := htells.learns b hv
      · rw [hold.1] at hv
        cases hv
      · exact Or.inl hnew
    · obtain hc | hc := List.mem_append.mp hc
      · exact Or.inr (Option.mem_toList.mp hc)
      · exact absurd hc hold.2
  -- the certificate of a received proposal
  have received {b : H} (hc : certifies s.core i = some b) :
      ((s.core.call P i).exit = none → .onQcFinish b ∈ (s.core.call P i).tasks) ∧
        ∀ e, (s.core.call P i).exit = some (.throw e) →
          ∀ p, s.waiting b = some p → s.promises.isPending p = false := by
    cases i with
    | onReceiveProposal prop =>
      simp only [Core.permits, Bool.and_eq_true, decide_eq_true_eq] at hi
      obtain ⟨⟨hid, _⟩, hd⟩ := hi
      have hqc : s.core.qcRef prop.blk = some b := hc
      have hj := h.wellFormed.dag.qcRef_eq hd
      rw [hqc] at hj
      obtain rfl := Option.some.inj hj
      obtain ⟨hfin, hbr⟩ := Core.onReceiveProposal_finishes h.wellFormed hid hd
      refine ⟨hfin, fun e he p hp => ?_⟩
      simpa [wakes, hbr e he, hqc, hp] using hwakes
    | _ => cases hc
  split at hstep
  · rename_i hexit
    obtain rfl := Option.some.inj hstep
    refine ⟨hwf, h.goal, h.returned, fun b p hb hpend hknown => ?_, h.finishing, h.nested⟩
    have htask : .onQcFinish b ∈ (s.core.call P i).tasks := by
      simp only [QcWaiting.known, Bool.or_eq_true, decide_eq_true_eq] at hknown
      obtain ⟨_, htask⟩ | hc := learned hb hpend hknown
      · exact htask
      · exact (received hc).1 hexit
    exact List.mem_filterMap.mpr ⟨_, htask, rfl⟩
  · rename_i e hexit
    obtain rfl := Option.some.inj hstep
    refine ⟨hwf, h.goal, h.returned, fun b p hb hpend hknown => ?_,
      fun b hb => (List.not_mem_nil hb).elim, .nil⟩
    exfalso
    simp only [QcWaiting.known, Bool.or_eq_true, decide_eq_true_eq] at hknown
    obtain ⟨hnone, _⟩ | hc := learned hb hpend hknown
    · rw [hexit] at hnone
      cases hnone
    · have hset := (received hc).2 e hexit p hb
      have hpend' : s.promises.isPending p = true := hpend
      rw [hset] at hpend'
      cases hpend'
  · cases hstep

theorem Waits.step (h : s.Waits P) {e : QcEvent H Sig} (hwakes : s.wakes e = true)
    (hstep : s.step P e = some s') : s'.Waits P := by
  cases e with
  | call i => exact h.call hwakes hstep
  | onQcFinish => exact h.onQcFinish hstep
  | erase => exact h.erase hstep
  | asyncQcFinish waiter blk =>
    simp only [QcWaiting.step, Option.ite_none_right_eq_some, Option.some.injEq] at hstep
    obtain ⟨_, rfl⟩ := hstep
    exact h.asyncQcFinish hwakes
  | reject waiter pm =>
    simp only [QcWaiting.step, Option.ite_none_right_eq_some, Option.some.injEq] at hstep
    obtain ⟨_, rfl⟩ := hstep
    exact h.reject hwakes

/-- No wake-up is lost: in every run that meets the condition at each step, a promise that
`async_qc_finish` has returned for a block that is known to be certified has been fulfilled, unless
the one to whom it was returned has rejected it or `on_qc_finish` is still to be called. -/
theorem no_lost_wakeup {dummy : QuorumCert H Sig} {replicas : List Nat} {listenAddr : Nat}
    {id : ReplicaID} (h : Transition.Reaches (QcWaiting.step P) (fun s e => s.wakes e = true)
      (init P dummy replicas listenAddr id) s) {w pm : Nat} {blk : H}
    (hret : (w, blk, pm) ∈ s.returned) (hknown : s.known blk = true) (htodo : blk ∉ s.todo)
    (hrej : (w, pm) ∉ s.rejections) : s.promises.isFulfilled pm = true := by
  have hwaits : s.Waits P := by
    apply Transition.Reaches.invariant h
    · refine ⟨(Core.start_started P id dummy replicas listenAddr).wellFormed, ?_, ?_, ?_, ?_, .nil⟩
      · intro blk pm hb
        cases hb
      · intro w blk pm hret
        cases hret
      · intro blk pm hb
        cases hb
      · intro blk hb
        cases hb
    · exact fun _ _ _ hwaits hwakes hstep => hwaits.step hwakes hstep
  exact hwaits.woken hret hknown htodo hrej

end QcWaiting
namespace Concrete

/-- Primitives for the chain of five blocks. -/
def chained : Primitives Nat Signature := primitives chainBlocks []

/-- Replica 0 gets the first two blocks of the chain. -/
def firstBlocks : List (QcEvent Nat Signature) :=
  [1, 2].flatMap fun h =>
    (chainBlocks[h - 1]?.toList.map fun data => .call (.addBlk data)) ++ [.call (.onDeliverBlk h)]

/-- It counts the votes of three replicas for block 1. -/
def threeVotes : List (QcEvent Nat Signature) :=
  ([0, 1, 2].map fun r => .call (.onReceiveVote
    { voter := r, blkHash := 1, cert := { objHash := 1, sig := (r, 1) } })) ++ [.onQcFinish, .erase]

/-- It gets the proposal of block 2, of which the certificate is for block 1. -/
def secondProposal : List (QcEvent Nat Signature) :=
  [.call (.onReceiveProposal (offered chainBlocks 2)), .onQcFinish]

/-- Some waiter has been returned a promise for a block that is known to be certified, has not
rejected it and waits for ever. -/
def lost (s : QcWaiting Nat Signature) : Bool :=
  s.returned.any fun x => s.known x.2.1 && decide (x.2.1 ∉ s.todo) &&
    decide ((x.1, x.2.2) ∉ s.rejections) && !s.promises.isFulfilled x.2.2

set_option maxRecDepth 100000 in
theorem woken_run :
    (Transition.runBy (QcWaiting.step chained) (fun s e => s.wakes e = true)
      (QcWaiting.init chained noCert [10, 11, 12, 13] 10 0)
      (firstBlocks ++ [.asyncQcFinish 7 1, .asyncQcFinish 8 1] ++ threeVotes)).map
        (fun s => (s.returned, s.known 1, s.todo, s.rejections)) =
      some ([(8, 1, 0), (7, 1, 0)], true, [], []) := by
  decide +kernel

/-- Two waiters share the promise for block 1, and three votes wake them. -/
theorem no_lost_wakeup_shared : ∃ s : QcWaiting Nat Signature,
    s.returned = [(8, 1, 0), (7, 1, 0)] ∧ s.promises.isFulfilled 0 = true := by
  obtain ⟨s, hreach, hseen⟩ := Transition.runBy_map_reaches woken_run
  simp only [Prod.mk.injEq] at hseen
  obtain ⟨hret, hknown, htodo, hrej⟩ := hseen
  refine ⟨s, hret, QcWaiting.no_lost_wakeup hreach (w := 7) ?_ hknown ?_ ?_⟩
  · simp [hret]
  · simp [htodo]
  · simp [hrej]

/-- Whether a wake-up is lost in the runs through some events. -/
def loses (events : List (QcEvent Nat Signature)) : Option Bool :=
  (Transition.runBy (QcWaiting.step chained) (fun _ _ => True)
    (QcWaiting.init chained noCert [10, 11, 12, 13] 10 0) (firstBlocks ++ events)).map lost

set_option maxRecDepth 100000 in
/-- A waiter that asks when only a proposal has told of the certificate; one whose promise is rejected
by another; and one that gets the promise that another has rejected. -/
theorem lost_wakeups : loses (secondProposal ++ [.asyncQcFinish 7 1]) = some true ∧
    loses ([.asyncQcFinish 7 1, .asyncQcFinish 8 1, .reject 8 0] ++ threeVotes) = some true ∧
    loses ([.asyncQcFinish 8 1, .reject 8 0, .asyncQcFinish 7 1] ++ threeVotes) = some true := by
  decide +kernel

end Concrete
end LibHotStuff
