import LibHotStuff.Proofs.CommitQueue
import LibHotStuff.Proofs.ExecutionChain
import LibHotStuff.Proofs.FailedProposals

/-! Exceptions in the commit loop. -/

namespace LibHotStuff

open Chain

variable {H Sig : Type} [DecidableEq H] {P : Primitives H Sig}

/-- The place of a command in the log. -/
def Finality.place (f : Finality H) : Nat × Nat := (f.cmdHeight, f.cmdIdx)

namespace Core

variable {c u : Core H Sig} {nblk b : H} {raises : CommitPoint H → Option Error}
  {log : List (Output H Sig)}

omit [DecidableEq H] in
theorem decideRaising_none (c : Core H Sig) (b : H) (i : Nat) (cmds : List UInt256) :
    c.decideRaising (fun _ => none) b i cmds = .emit c (cmds.mapIdx fun j cmd => .doDecide
      { rid := c.id, decision := 1, cmdIdx := i + j, cmdHeight := c.height b, cmdHash := cmd,
        blkHash := b }) := by
  induction cmds generalizing i with
  | nil => rfl
  | cons cmd cmds ih =>
    rw [decideRaising, Res.emit, Res.bind_none rfl]
    dsimp only
    rw [ih, List.mapIdx_cons]
    simp only [Nat.add_zero, Nat.add_assoc, Nat.add_comm 1]
    rfl

theorem commitBlkRaising_none (c : Core H Sig) (b : H) :
    c.commitBlkRaising (fun _ => none) b = c.commitBlk b := by
  unfold commitBlkRaising commitBlk
  dsimp only
  cases (c.modify b fun b => { b with decision := true }).futures b with
  | none => rfl
  | some fu =>
    cases fu with
    | error f => rfl
    | ok cmds =>
      dsimp only
      rw [Res.emit, Res.bind_none rfl, decideRaising_none]
      simp only [Nat.zero_add]
      rfl

theorem commitRaising_none :
    commitRaising (fun _ => none) = (commit : Core H Sig → H → Res H Sig) := by
  have hall (queue : List H) : ∀ c : Core H Sig,
      c.commitAllRaising (fun _ => none) queue = c.commitAll queue := by
    induction queue with
    | nil => exact fun _ => rfl
    | cons b queue ih =>
      intro c
      rw [commitAllRaising, commitAll, commitBlkRaising_none]
      exact congrArg _ (funext ih)
  funext c b
  unfold commitRaising commit
  cases c.walkDown (c.height c.bExec) (c.height b + 1) b with
  | error f => rfl
  | ok walked =>
    dsimp only
    rw [hall]

/-- Without exceptions it is the call of the core. -/
theorem callRaising_none (c : Core H Sig) (i : Call H Sig) :
    c.callRaising P (fun _ => none) i = c.call P i := by
  unfold callRaising
  rw [commitRaising_none]
  cases i <;> rfl

/-- What the commit loop leaves when exceptions may come up in it: it has handed over a first part of
the queue and of the commands, and all of them when it returned. -/
structure Attempted (c : Core H Sig) (queue : List H) (r : Res H Sig) : Prop where
  sweeps : c.Sweeps r.core (consensusLog r.outs)
  tasks : r.tasks = []
  log : consensusLog r.outs <+: queue
  decides : queue.Nodup → decideLog r.outs <+:
    (consensusLog r.outs).flatMap fun b => c.finalities b (c.pending b)
  returned : r.exit = none → consensusLog r.outs = queue ∧
    (queue.Nodup → decideLog r.outs = queue.flatMap fun b => c.finalities b (c.pending b))

/-- What `do_decide` is given for command `i` of a block. -/
def finalityAt (c : Core H Sig) (blk : H) (i : Nat) (cmd : UInt256) : Finality H :=
  { rid := c.id, decision := 1, cmdIdx := i, cmdHeight := c.height blk, cmdHash := cmd,
    blkHash := blk }

omit [DecidableEq H] in
/-- `do_decide` for the commands of one block, from command `i` on. -/
theorem decideRaising_cases (raises : CommitPoint H → Option Error) (c : Core H Sig) (b : H) (i : Nat)
    (cmds : List UInt256) : ∃ outs exit, c.decideRaising raises b i cmds = ⟨c, outs, [], exit⟩ ∧
      consensusLog outs = [] ∧
      decideLog outs <+: cmds.mapIdx (fun j => c.finalityAt b (j + i)) ∧
      (exit = none → decideLog outs = cmds.mapIdx fun j => c.finalityAt b (j + i)) := by
  induction cmds generalizing i with
  | nil => exact ⟨[], none, rfl, rfl, List.prefix_refl _, fun _ => rfl⟩
  | cons cmd cmds ih =>
    obtain ⟨outs, exit, heq, hcons, hpre, hall⟩ := ih (i + 1)
    have hshift : (fun j => c.finalityAt b (j + (i + 1))) = fun j => c.finalityAt b (j + 1 + i) := by
      funext j
      rw [Nat.add_comm i 1, Nat.add_assoc]
    rw [hshift] at hpre hall
    rw [decideRaising, List.mapIdx_cons, Nat.zero_add]
    split
    · exact ⟨_, _, rfl, rfl, List.cons_prefix_cons.mpr ⟨rfl, List.nil_prefix⟩, fun h => by cases h⟩
    · rw [Res.emit, Res.bind_none rfl]
      dsimp only
      rw [heq]
      refine ⟨_, exit, rfl, hcons, List.cons_prefix_cons.mpr ⟨rfl, hpre⟩, fun h => ?_⟩
      rw [← hall h]
      rfl

/-- One turn of the loop. -/
theorem commitBlkRaising_attempted (raises : CommitPoint H → Option Error) (c : Core H Sig) (b : H) :
    c.Attempted [b] (c.commitBlkRaising raises b) := by
  have hkept := Sweeps.single c b c.sc (f := c.futures) fun _ => Or.inl rfl
  have early (exit : Option Fault)
      (hexit : exit = none → c.pending b = []) :
      c.Attempted [b] ⟨c.modify b fun b => { b with decision := true }, [.doConsensus b], [], exit⟩ := by
    refine ⟨hkept, rfl, List.prefix_refl _, fun _ => List.nil_prefix, fun he => ⟨rfl, fun _ => ?_⟩⟩
    rw [List.flatMap_singleton, hexit he]
    rfl
  unfold commitBlkRaising
  dsimp only
  split
  · exact early _ fun h => by cases h
  have hturn (o : Option (Except Fault (List UInt256))) (he : c.futures b = o) :
      (c.modify b fun b => { b with decision := true }).futures b = o := he
  rw [hturn _ rfl]
  split
  · rename_i hnone
    exact early none fun _ => pending_nil (by simp [hnone])
  rename_i fu hfu
  split
  · exact early _ fun h => by cases h
  · exact early _ fun h => by cases h
  rename_i cmds _
  change c.Attempted [b] ((Res.emit { c.modify b (fun b => { b with decision := true }) with
    futures := Function.update c.futures b none, sc := c.sc.remove b } [.doConsensus b]).bind fun c =>
      c.decideRaising raises b 0 cmds)
  generalize hc' : ({ c.modify b (fun b => { b with decision := true }) with
    futures := Function.update c.futures b none, sc := c.sc.remove b } : Core H Sig) = c'
  have hsweeps : c.Sweeps c' [b] := by
    rw [← hc']
    refine Sweeps.single c b (c.sc.remove b) fun x => ?_
    by_cases hx : x = b
    · subst hx
      exact Or.inr ⟨List.mem_singleton_self x, Function.update_self _ _ _⟩
    · exact Or.inl (Function.update_of_ne hx _ _)
  obtain ⟨outs, exit, heq, hcons, hpre, hall⟩ := decideRaising_cases raises c' b 0 cmds
  have hfins : cmds.mapIdx (fun j => c'.finalityAt b (j + 0)) = c.finalities b (c.pending b) := by
    rw [pending_ok hfu, ← finalities_congr hsweeps.sameDag hsweeps.same.id]
    rfl
  rw [hfins] at hpre hall
  have hlog : consensusLog (.doConsensus b :: outs) = [b] := congrArg (b :: ·) hcons
  rw [Res.emit, Res.bind_none rfl]
  dsimp only
  rw [heq]
  refine ⟨?_, rfl, ?_, fun _ => ?_, fun he => ⟨hlog, fun _ => ?_⟩⟩
  · exact hlog.symm ▸ hsweeps
  · exact hlog.symm ▸ List.prefix_refl _
  · change decideLog outs <+: (consensusLog (.doConsensus b :: outs)).flatMap _
    rw [hlog, List.flatMap_singleton]
    exact hpre
  · rw [List.flatMap_singleton, ← hall he]
    rfl

omit [DecidableEq H] in
/-- A turn that returns, and the rest of the queue. -/
theorem Attempted.append {queue : List H} {r r' : Res H Sig} (h : c.Attempted [b] r)
    (he : r.exit = none) (h' : r.core.Attempted queue r') :
    c.Attempted (b :: queue) ⟨r'.core, r.outs ++ r'.outs, r.tasks ++ r'.tasks, r'.exit⟩ := by
  obtain ⟨hcons, hdecs⟩ := h.returned he
  have hlog : consensusLog (r.outs ++ r'.outs) = b :: consensusLog r'.outs := by
    rw [consensusLog_append, hcons]
    rfl
  have hsame (hb : b ∉ queue) : ∀ x ∈ queue,
      r.core.finalities x (r.core.pending x) = c.finalities x (c.pending x) := by
    intro x hx
    have hxb : x ∉ consensusLog r.outs := by
      rw [hcons, List.mem_singleton]
      rintro rfl
      exact hb hx
    have hfut : r.core.futures x = c.futures x :=
      (h.sweeps.futures x).resolve_right fun hn => hxb hn.1
    rw [finalities_congr h.sweeps.sameDag h.sweeps.same.id, pending, pending, hfut]
  have hfirst : decideLog r.outs = c.finalities b (c.pending b) := by
    rw [hdecs (List.nodup_singleton b), List.flatMap_singleton]
  refine ⟨?_, ?_, ?_, fun hnd => ?_, fun he' => ⟨?_, fun hnd => ?_⟩⟩
  · have hsweeps := h.sweeps.trans h'.sweeps
    rwa [← consensusLog_append] at hsweeps
  · rw [h.tasks, h'.tasks]
    rfl
  · rw [hlog]
    exact List.cons_prefix_cons.mpr ⟨rfl, h'.log⟩
  · obtain ⟨hb, hnd'⟩ := List.nodup_cons.mp hnd
    have hrest := h'.decides hnd'
    rw [List.flatMap_congr fun x hx => hsame hb x (h'.log.subset hx)] at hrest
    dsimp only
    rw [hlog, decideLog_append, List.flatMap_cons, hfirst]
    exact (List.prefix_append_right_inj _).mpr hrest
  · rw [hlog, (h'.returned he').1]
  · obtain ⟨hb, hnd'⟩ := List.nodup_cons.mp hnd
    rw [decideLog_append, List.flatMap_cons, hfirst, (h'.returned he').2 hnd',
      List.flatMap_congr (hsame hb)]

/-- The loop over a queue. -/
theorem commitAllRaising_attempted (raises : CommitPoint H → Option Error) (c : Core H Sig)
    (queue : List H) : c.Attempted queue (c.commitAllRaising raises queue) := by
  induction queue generalizing c with
  | nil => exact ⟨.refl c, rfl, List.prefix_refl _, fun _ => List.prefix_refl _, fun _ => ⟨rfl, fun _ => rfl⟩⟩
  | cons b queue ih =>
    have hb := commitBlkRaising_attempted raises c b
    rw [commitAllRaising]
    cases he : (c.commitBlkRaising raises b).exit with
    | none =>
      rw [Res.bind_none he]
      exact hb.append he (ih _)
    | some f =>
      have hne (hn : (c.commitBlkRaising raises b).exit = none) : False := by
        rw [hn] at he
        cases he
      rw [Res.bind_some he]
      refine ⟨hb.sweeps, hb.tasks, ?_, fun _ => hb.decides (List.nodup_singleton b), fun hn => (hne hn).elim⟩
      exact hb.log.trans (List.cons_prefix_cons.mpr ⟨rfl, List.nil_prefix⟩)

/-- What a call hands over when its commit loop runs over a queue in state `u`. -/
structure HandsOver (P : Primitives H Sig) (u : Core H Sig) (queue : List H) (r : Res H Sig) : Prop where
  wellFormed : r.core.WellFormed P
  log : consensusLog r.outs <+: queue
  decides : decideLog r.outs <+:
    (consensusLog r.outs).flatMap fun b => u.finalities b (u.pending b)
  heights : (consensusLog r.outs).Pairwise fun x y => u.height x < u.height y
  decided : ∀ x, r.core.decided x = true ↔ u.decided x = true ∨ x ∈ consensusLog r.outs

omit [DecidableEq H] in
/-- Nothing is committed. -/
theorem HandsOver.silent {r : Res H Sig} (hc : r.core.WellFormed P) (queue : List H)
    (hcons : consensusLog r.outs = []) (hdecs : decideLog r.outs = [])
    (hdec : ∀ x, r.core.decided x = u.decided x) : u.HandsOver P queue r where
  wellFormed := hc
  log := by
    rw [hcons]
    exact List.nil_prefix
  decides := by
    rw [hdecs]
    exact List.nil_prefix
  heights := by
    rw [hcons]
    exact .nil
  decided x := by
    rw [hcons, hdec]
    simp

omit [DecidableEq H] in
/-- What follows without a commit. -/
theorem HandsOver.bind {queue : List H} {r : Res H Sig} {k : Core H Sig → Res H Sig}
    (h : u.HandsOver P queue r) (hk : r.exit = none → (k r.core).core.WellFormed P ∧
      consensusLog (k r.core).outs = [] ∧ decideLog (k r.core).outs = [] ∧
        ∀ x, (k r.core).core.decided x = r.core.decided x) : u.HandsOver P queue (r.bind k) := by
  cases he : r.exit with
  | some f =>
    rw [Res.bind_some he]
    exact h
  | none =>
    obtain ⟨hwf, hcons, hdecs, hdec⟩ := hk he
    rw [Res.bind_none he]
    refine ⟨hwf, ?_, ?_, ?_, fun x => ?_⟩
    · rw [consensusLog_append, hcons, List.append_nil]
      exact h.log
    · rw [consensusLog_append, decideLog_append, hcons, hdecs, List.append_nil, List.append_nil]
      exact h.decides
    · rw [consensusLog_append, hcons, List.append_nil]
      exact h.heights
    · rw [consensusLog_append, hcons, List.append_nil, ← h.decided]
      exact iff_of_eq (congrArg (· = true) (hdec x))

/-- The end of `update`. -/
theorem commitRaising_cases (raises : CommitPoint H → Option Error) (hc : c.WellFormed P)
    (hb : c.delivered b = true) :
    c.commitRaising raises b = .fail c (.throw .safetyBreached) ∨
      up P.parent (c.height b - c.height c.bExec) b = some c.bExec ∧ c.commitRaising raises b =
        (c.commitAllRaising raises (path P.parent (c.height b - c.height c.bExec) b).reverse).bind
          fun c => .ok { c with bExec := b } := by
  obtain ⟨e, hwalk, hup⟩ := hc.dag.walkDown_eq hb (c.height c.bExec) (Nat.lt_succ_self _)
  unfold commitRaising
  rw [hwalk]
  by_cases he : e = c.bExec
  · subst he
    exact Or.inr ⟨hup, if_neg (not_not_intro rfl)⟩
  · exact Or.inl (if_pos he)

omit [DecidableEq H] in
/-- The block whose decoding `update` starts is not one that it commits. -/
theorem CommitsTo.locked_not_mem {r : Res H Sig} {done : List H} (hto : c.CommitsTo P nblk b r done)
    (hc : c.WellFormed P) :
    P.justify (P.justify nblk) ∉ (path P.parent (c.height b - c.height c.bExec) b).reverse := by
  intro hmem
  obtain ⟨hbd, _⟩ := hto.queue_delivered hc
  have hroot := hc.dag.onChain_genesis hbd
  obtain ⟨b₁, b₂, hb₂, _, hb₁, hp₁, _⟩ := hto.completes
  rw [hb₂, hb₁] at hmem
  obtain ⟨i, _, hup⟩ := (mem_path hto.onExec).mp (List.mem_reverse.mp hmem)
  have hdepth := depth_up P.parent_genesis hup hroot
  have hchild := depth_parent P.parent_genesis hroot hp₁
  omega

/-- `update`, with what may come up in its loop. -/
theorem updateRaising_handsOver (raises : CommitPoint H → Option Error) (hc : c.WellFormed P)
    (hd : c.delivered nblk = true) :
    c.HandsOver P (c.commitQueue nblk).reverse (c.updateBy P (commitRaising raises) nblk) := by
  obtain ⟨c', outs, hprep, hcases⟩ := updateBy_cases (commitRaising raises) hc hd
  have hc' := hprep.wellFormed hc
  have hcons : consensusLog outs = [] := by
    rcases hprep.outs_eq with ho | ho <;> rw [ho] <;> rfl
  have hdecs : decideLog outs = [] := by
    rcases hprep.outs_eq with ho | ho <;> rw [ho] <;> rfl
  have quiet (exit : Option Fault) :
      c.HandsOver P (c.commitQueue nblk).reverse ⟨c', outs, [], exit⟩ :=
    .silent hc' _ hcons hdecs hprep.decided
  obtain ⟨hraised, hres | ⟨b, hcomp, hjd, hdec₂, hdec₁, hdec, hres⟩⟩ | ⟨f, _, hres⟩ := hcases
  · rw [hres]
    exact quiet none
  swap
  · rw [hres]
    exact quiet (some f)
  have hdecides : c'.Decides P nblk b :=
    ⟨by rw [hprep.sameDag.delivered, hd], by rw [hprep.sameDag.delivered, hjd], hcomp,
      by rw [hprep.decided, hdec₂], by rw [hprep.decided, hdec₁], by rw [hprep.decided, hdec],
      hraised⟩
  have hbd := hdecides.delivered hc'
  rw [hres, Res.bind_none rfl]
  dsimp only
  obtain hfail | ⟨hup, hcom⟩ := commitRaising_cases raises hc' hbd
  · rw [hfail]
    simpa [Res.fail] using quiet (some (.throw .safetyBreached))
  obtain ⟨done, hcommitted⟩ :=
    commitAll_committed c' (path P.parent (c'.height b - c'.height c'.bExec) b).reverse
  have hto : c'.CommitsTo P nblk b _ done :=
    { hdecides with onExec := hup, committed := hcommitted }
  have hqueue : (path P.parent (c'.height b - c'.height c'.bExec) b).reverse =
      (c.commitQueue nblk).reverse := by
    rw [← hto.commitQueue_eq hc', commitQueue_congr hprep.storage (by rw [hprep.rest])]
  have hlocked := hto.locked_not_mem hc'
  have hnodup := hto.queue_nodup hc'
  obtain ⟨_, hdelivered⟩ := hto.queue_delivered hc'
  obtain ⟨_, hpair, hstored⟩ := hto.queue hc'
  rw [hqueue] at hcom hlocked hnodup hdelivered hpair hstored
  have hatt := commitAllRaising_attempted raises c' (c.commitQueue nblk).reverse
  have hsame : ∀ x ∈ (c.commitQueue nblk).reverse,
      c'.finalities x (c'.pending x) = c.finalities x (c.pending x) := by
    intro x hx
    have hfut : c'.futures x = c.futures x := by
      obtain heq | ⟨_, _, _, _, heq⟩ := hprep.futures
      · rw [heq]
      · rw [heq, Function.update_of_ne]
        rintro rfl
        exact hlocked hx
    rw [finalities_congr hprep.sameDag hprep.id, pending, pending, hfut]
  have hands : c.HandsOver P (c.commitQueue nblk).reverse
      ⟨(c'.commitAllRaising raises (c.commitQueue nblk).reverse).core,
        outs ++ (c'.commitAllRaising raises (c.commitQueue nblk).reverse).outs, [],
        (c'.commitAllRaising raises (c.commitQueue nblk).reverse).exit⟩ := by
    generalize c'.commitAllRaising raises (c.commitQueue nblk).reverse = r at hatt
    have hwf := hatt.sweeps.wellFormed hc' fun x hx => hdelivered x (hatt.log.subset hx)
    refine ⟨hwf, ?_, ?_, ?_, fun x => ?_⟩
    · rw [consensusLog_append, hcons, List.nil_append]
      exact hatt.log
    · rw [consensusLog_append, decideLog_append, hcons, hdecs, List.nil_append, List.nil_append,
        ← List.flatMap_congr fun x hx => hsame x (hatt.log.subset hx)]
      exact hatt.decides hnodup
    · rw [consensusLog_append, hcons, List.nil_append]
      refine (hpair.sublist hatt.log.sublist).imp_of_mem fun {x y} hx hy hlt => ?_
      rw [← hprep.sameDag.height, ← hprep.sameDag.height, (hstored x (hatt.log.subset hx)).1,
        (hstored y (hatt.log.subset hy)).1]
      exact hlt
    · rw [consensusLog_append, hcons, List.nil_append, hatt.sweeps.decided, hprep.decided]
      constructor
      · exact Or.imp_right fun h => h.1
      · exact Or.imp_right fun h => ⟨h, hstored x (hatt.log.subset h) |>.2.2⟩
  rw [hcom]
  generalize c'.commitAllRaising raises (c.commitQueue nblk).reverse = r at hatt hands
  cases he : r.exit with
  | some f =>
    rw [Res.bind_some he, hatt.tasks]
    exact hands
  | none =>
    rw [Res.bind_none he, hatt.tasks]
    simp only [Res.ok, List.append_nil]
    have hb : r.core.delivered b = true := by rw [hatt.sweeps.sameDag.delivered, hbd]
    exact { hands with wellFormed := hands.wellFormed.with_exec hb }

theorem castVote_kept (hc : c.WellFormed P) (prop : Proposal H) :
    (c.castVote P prop).core.WellFormed P ∧
      ∀ x, (c.castVote P prop).core.decided x = c.decided x := by
  obtain ⟨o, _, heq⟩ := castVote_eq hc prop
  rw [heq]
  refine ⟨?_, fun x => ?_⟩
  · cases o
    · exact hc
    · exact hc.of_sameDag (.of_storage rfl rfl) (fun _ => rfl) rfl rfl rfl rfl
        (List.Subset.refl _) fun hb => hc.selfQcHash hb
  · cases o <;> rfl

/-- A received proposal. -/
theorem onReceiveProposalBy_handsOver (raises : CommitPoint H → Option Error) (hc : c.WellFormed P)
    {prop : Proposal H} (hid : prop.proposer ≠ c.id) (hd : c.delivered prop.blk = true) :
    c.HandsOver P (c.commitQueue prop.blk).reverse
      (c.onReceiveProposalBy P (updateBy P (commitRaising raises)) prop) := by
  have taken (sc : ShardsContainer H) (f : Fault) :
      c.HandsOver P (c.commitQueue prop.blk).reverse (.fail { c with sc := sc } f) :=
    .silent (hc.with_shards sc) _ rfl rfl fun _ => rfl
  obtain ⟨sc, _, _, hslice | hslice⟩ :=
    onReceiveSlice_steps (P := P) (R := .any H Sig) c (s := prop.slice) trivial
  swap
  · obtain h | h := onReceiveProposalBy_fault (updateBy P (commitRaising raises)) hslice
    · rw [h]
      exact taken sc _
    · rw [h]
      exact taken c.sc _
  obtain h | h := onReceiveProposalBy_eq (updateBy P (commitRaising raises)) hslice
  · rw [h]
    exact taken c.sc _
  have hwf := hc.with_shards (P := P) sc
  have hd₀ : ({ c with sc := sc } : Core H Sig).delivered prop.blk = true := hd
  have hid₀ : prop.proposer ≠ ({ c with sc := sc } : Core H Sig).id := hid
  have hqueue : ({ c with sc := sc } : Core H Sig).commitQueue prop.blk = c.commitQueue prop.blk :=
    commitQueue_congr (show ({ c with sc := sc } : Core H Sig).storage = c.storage from rfl) rfl _
  have hup := updateRaising_handsOver raises hwf hd₀
  have hends := hup.bind (k := fun c => c.castVote P prop) fun _ => by
    obtain ⟨hvoted, hdec⟩ := castVote_kept hup.wellFormed prop
    rw [(castVote_exit hup.wellFormed prop).1]
    exact ⟨hvoted, rfl, rfl, hdec⟩
  rw [hqueue] at hends
  rw [h, if_neg hid₀, if_pos hd₀]
  exact ⟨hends.wellFormed, hends.log, hends.decides, hends.heights, hends.decided⟩

/-- The end of `on_propose` commits nothing. -/
theorem HandsOver.sendProposal {queue : List H} {r : Res H Sig} (h : u.HandsOver P queue r)
    (cmds : List UInt256) (bnew : H) :
    u.HandsOver P queue (r.bind fun c => c.sendProposal P cmds bnew) := by
  refine h.bind fun _ => ?_
  obtain ⟨f, _, heq⟩ | ⟨props, prop, _, _, hid, _, _, heq⟩ :=
    sendProposal_cases (P := P) r.core cmds bnew
  · rw [heq]
    exact ⟨h.wellFormed, rfl, rfl, fun _ => rfl⟩
  have hwf (sc : ShardsContainer H) := h.wellFormed.with_shards (P := P) sc
  obtain ⟨sc, _, ⟨_, f, _, hr⟩ | ⟨_, hr⟩⟩ :=
    onReceiveProposal_own (R := .any H Sig) h.wellFormed hid trivial
  · rw [heq, hr, Res.bind_some rfl]
    exact ⟨hwf sc, rfl, rfl, fun _ => rfl⟩
  · obtain ⟨hvoted, hdec⟩ := castVote_kept (hwf sc) prop
    rw [heq, hr, Res.bind_none rfl]
    exact ⟨hvoted, rfl, rfl, hdec⟩

/-- The state in which a call enters `update`, and the block that it enters it with. -/
def updateEntry (P : Primitives H Sig) (c : Core H Sig) : Call H Sig → Option (Core H Sig × H)
  | .onReceiveProposal prop => some (c, prop.blk)
  | .onPropose cmds parents extra => some (c.beforeOwnUpdate P cmds parents extra,
      P.hashBlock (c.proposedData P cmds parents extra))
  | _ => none

/-- What a call hands over is a part of the queue with which it enters `update`. -/
structure Enters (P : Primitives H Sig) (c : Core H Sig) (i : Call H Sig) (u : Core H Sig)
    (queue : List H) (r : Res H Sig) : Prop extends u.HandsOver P queue r where
  kept : ∀ x, u.decided x = c.decided x
  entry : queue = [] ∨ ∃ nblk, c.updateEntry P i = some (u, nblk) ∧
    queue = (u.commitQueue nblk).reverse

/-- An own proposal. -/
theorem onProposeBy_enters (raises : CommitPoint H → Option Error) (hc : c.WellFormed P)
    (cmds : List UInt256) {parents : List H} (extra : Bytes)
    (hpar : parents.all c.delivered = true) :
    ∃ u queue, c.Enters P (.onPropose cmds parents extra) u queue
      (c.onProposeBy P (updateBy P (commitRaising raises)) cmds parents extra) := by
  cases hp₀ : parents.head? with
  | none =>
    refine ⟨c, [], ?_, fun _ => rfl, Or.inl rfl⟩
    rw [onProposeBy, hp₀]
    exact .silent hc _ rfl rfl fun _ => rfl
  | some p₀ =>
    generalize hbnew : P.hashBlock (c.proposedData P cmds parents extra) = bnew
    obtain ⟨_, hok, _⟩ := beforeOwnUpdate_eq hc hp₀ hpar hbnew
    obtain ⟨hgrow, hd⟩ := beforeOwnUpdate_grows hc hp₀ hpar hbnew
    refine ⟨c.beforeOwnUpdate P cmds parents extra, _, ?_, hgrow.quiet.decided,
      Or.inr ⟨bnew, by rw [updateEntry, hbnew], rfl⟩⟩
    have hup := updateRaising_handsOver raises hgrow.wellFormed hd
    rw [onProposeBy, hp₀]
    dsimp only
    rw [hbnew, hok, Res.bind_none rfl]
    exact hup.sendProposal cmds bnew

theorem onReceiveVote_log (hc : c.WellFormed P) (vote : Vote H Sig) :
    consensusLog (c.onReceiveVote vote).outs = [] ∧ decideLog (c.onReceiveVote vote).outs = [] := by
  obtain heq | heq | ⟨_, _, heq | heq | ⟨_, _, outs, heq, ⟨_, rfl⟩ | ⟨rfl, _⟩⟩⟩ :=
    onReceiveVote_cases hc vote
  all_goals
    rw [heq]
    exact ⟨rfl, rfl⟩

/-- What any call hands over. -/
theorem callRaising_enters (raises : CommitPoint H → Option Error) (hc : c.WellFormed P)
    {i : Call H Sig} (hi : c.permits P i = true) :
    ∃ u queue, c.Enters P i u queue (c.callRaising P raises i) := by
  have silent {r : Res H Sig} (hwf : r.core.WellFormed P) (hcons : consensusLog r.outs = [])
      (hdecs : decideLog r.outs = []) (hdec : ∀ x, r.core.decided x = c.decided x) :
      ∃ u queue, c.Enters P i u queue r :=
    ⟨c, [], .silent hwf _ hcons hdecs hdec, fun _ => rfl, Or.inl rfl⟩
  cases i with
  | addBlk data =>
    have hgrow := (addBlk_grows hc data).1
    exact silent hgrow.wellFormed rfl rfl hgrow.quiet.decided
  | onDeliverBlk blk =>
    obtain ⟨hgrow, houts, _⟩ := deliver_grows hc hi
    exact silent hgrow.wellFormed (congrArg consensusLog houts) (congrArg decideLog houts)
      hgrow.quiet.decided
  | onReceiveProposal prop =>
    simp only [permits, Bool.and_eq_true, decide_eq_true_eq] at hi
    obtain ⟨⟨hid, _⟩, hd⟩ := hi
    exact ⟨c, _, onReceiveProposalBy_handsOver raises hc hid hd, fun _ => rfl,
      Or.inr ⟨prop.blk, rfl, rfl⟩⟩
  | onReceiveVote vote =>
    have hwf := (onReceiveVote_onward hc vote).1.wellFormed
    obtain ⟨hcons, hdecs⟩ := onReceiveVote_log hc vote
    exact silent hwf hcons hdecs (onReceiveVote_rest hc vote).2
  | onReceiveSlice s =>
    obtain ⟨sc, _, _, hslice | hslice⟩ :=
      onReceiveSlice_steps (P := P) (R := .any H Sig) c (s := s) trivial
    all_goals
      change ∃ u queue, c.Enters P _ u queue (c.onReceiveSlice P s)
      rw [hslice]
      exact silent (hc.with_shards sc) rfl rfl fun _ => rfl
  | onPropose cmds parents extra => exact onProposeBy_enters raises hc cmds extra hi
  | setVoteDisabled f => cases hi

theorem call_wellFormed (hc : c.WellFormed P) {i : Call H Sig} (hi : c.permits P i = true) :
    (c.call P i).core.WellFormed P := by
  obtain ⟨_, _, hr⟩ := callRaising_enters (fun _ => none) hc hi
  rw [callRaising_none] at hr
  exact hr.wellFormed

/-- The loop of a call meets no decided block, and no block with commands at a height at which
commands have been decided. -/
def firstTime (P : Primitives H Sig) (c : Core H Sig) (log : List (Output H Sig))
    (i : Call H Sig) : Bool :=
  match c.updateEntry P i with
  | none => true
  | some (u, nblk) => (u.commitQueue nblk).all fun b => !u.decided b &&
      ((u.pending b).isEmpty || (decideLog log).all fun f => decide (f.cmdHeight ≠ u.height b))

theorem firstTime_entry {i : Call H Sig} (h : c.firstTime P log i = true)
    (hentry : c.updateEntry P i = some (u, nblk)) (hb : b ∈ u.commitQueue nblk) :
    u.decided b = false ∧ (u.pending b ≠ [] → ∀ f ∈ decideLog log, f.cmdHeight ≠ u.height b) := by
  simp only [firstTime, hentry, List.all_eq_true] at h
  have hblock := h b hb
  simp only [Bool.and_eq_true, Bool.not_eq_true', Bool.or_eq_true, List.isEmpty_iff,
    List.all_eq_true, decide_eq_true_eq] at hblock
  exact ⟨hblock.1, fun hne => hblock.2.resolve_left hne⟩

end Core

namespace Executing

variable {s s' : Executing H Sig}

/-- No block and no place of a command has come up twice. -/
structure Once (P : Primitives H Sig) (s : Executing H Sig) : Prop where
  wellFormed : s.core.WellFormed P
  decided : ∀ b ∈ consensusLog s.log, s.core.decided b = true
  blocks : (consensusLog s.log).Nodup
  places : ((decideLog s.log).map Finality.place).Nodup

omit [DecidableEq H] in
/-- The commands of blocks of different heights. -/
theorem places_nodup {u : Core H Sig} {done : List H}
    (h : done.Pairwise fun x y => u.height x < u.height y) :
    ((done.flatMap fun b => u.finalities b (u.pending b)).map Finality.place).Nodup := by
  rw [List.Nodup, List.pairwise_map, List.pairwise_flatMap]
  constructor
  · intro b _
    refine (Core.finalities_ordered u b _).imp fun {f g} hbefore heq => ?_
    have hheight : f.cmdHeight = g.cmdHeight := congrArg Prod.fst heq
    have hidx : f.cmdIdx = g.cmdIdx := congrArg Prod.snd heq
    obtain hlt | ⟨_, hlt⟩ := hbefore
    · omega
    · omega
  · refine h.imp fun {x y} hlt f hf g hg heq => ?_
    have hheight : f.cmdHeight = g.cmdHeight := congrArg Prod.fst heq
    rw [(Core.mem_finalities hf).1, (Core.mem_finalities hg).1] at hheight
    omega

/-- A call that meets no block and no place again. -/
theorem Once.call {u : Core H Sig} {i : Call H Sig} {queue : List H} {r : Res H Sig}
    (h : s.Once P) (hr : s.core.Enters P i u queue r) (hfirst : s.core.firstTime P s.log i = true) :
    Executing.Once P ⟨r.core, s.log ++ r.outs⟩ := by
  have hqueue : ∀ b ∈ consensusLog r.outs, u.decided b = false ∧
      (u.pending b ≠ [] → ∀ f ∈ decideLog s.log, f.cmdHeight ≠ u.height b) := by
    intro b hb
    have hmem := hr.log.subset hb
    obtain hnil | ⟨nblk, hentry, heq⟩ := hr.entry
    · rw [hnil] at hmem
      cases hmem
    · rw [heq, List.mem_reverse] at hmem
      exact Core.firstTime_entry hfirst hentry hmem
  refine ⟨hr.wellFormed, fun b hb => ?_, ?_, ?_⟩
  · rw [consensusLog_append, List.mem_append] at hb
    refine (hr.decided b).mpr (hb.imp_left fun hb => ?_)
    rw [hr.kept, h.decided b hb]
  · rw [consensusLog_append]
    refine List.nodup_append.mpr ⟨h.blocks, ?_, fun x hx y hy heq => ?_⟩
    · exact hr.heights.imp fun {x y} hlt heq => by
        rw [heq] at hlt
        omega
    · subst heq
      have hund := (hqueue x hy).1
      rw [hr.kept, h.decided x hx] at hund
      cases hund
  · rw [decideLog_append, List.map_append]
    have hnew := (hr.decides.map Finality.place).sublist.nodup (places_nodup hr.heights)
    refine List.nodup_append.mpr ⟨h.places, hnew, fun p hp q hq heq => ?_⟩
    subst heq
    obtain ⟨f, hf, rfl⟩ := List.mem_map.mp hp
    obtain ⟨g, hg, heq⟩ := List.mem_map.mp hq
    obtain ⟨b, hb, hgb⟩ := List.mem_flatMap.mp (hr.decides.subset hg)
    have hpending : u.pending b ≠ [] := by
      intro hnil
      rw [hnil] at hgb
      cases hgb
    refine (hqueue b hb).2 hpending f hf ?_
    rw [← (Core.mem_finalities hgb).1]
    exact (congrArg Prod.fst heq).symm

/-- What each call meets for the first time, a run does. -/
theorem step_once (h : s.Once P) {e : Call H Sig × (CommitPoint H → Option Error)}
    (hfirst : s.core.firstTime P s.log e.1 = true) (hstep : s.step P e = some s') : s'.Once P := by
  obtain ⟨i, raises⟩ := e
  simp only [step, Option.ite_none_right_eq_some] at hstep
  obtain ⟨hi, hstep⟩ := hstep
  obtain ⟨u, queue, hr⟩ := Core.callRaising_enters raises h.wellFormed hi
  have honce := h.call hr hfirst
  split at hstep
  · rw [← Option.some.inj hstep]
    exact honce
  · rw [← Option.some.inj hstep]
    exact honce
  · cases hstep

/-- A core that has been started. -/
def start (P : Primitives H Sig) (dummy : QuorumCert H Sig) (replicas : List NetAddr)
    (listenAddr : NetAddr) (id : ReplicaID) : Executing H Sig :=
  ⟨(Core.new P id dummy).start replicas listenAddr, []⟩

/-- The commit loop under exceptions: in every run of a core, whatever exceptions come up in the
commit loops, in which no loop meets a block that is decided already, nor commands at a height at
which commands have been decided, `do_consensus` has been called at most once for each block and
`do_decide` at most once for each height and index. -/
theorem commits_once {dummy : QuorumCert H Sig} {replicas : List NetAddr} {listenAddr : NetAddr}
    {id : ReplicaID} (h : Transition.Reaches (step P)
      (fun s e => s.core.firstTime P s.log e.1 = true) (start P dummy replicas listenAddr id) s) :
    (consensusLog s.log).Nodup ∧ ((decideLog s.log).map Finality.place).Nodup := by
  have honce : s.Once P := by
    apply Transition.Reaches.invariant h
    · refine ⟨(Core.start_started P id dummy replicas listenAddr).wellFormed, ?_, .nil, .nil⟩
      intro b hb
      cases hb
    · exact fun _ _ _ honce hfirst hstep => step_once honce hfirst hstep
  exact ⟨honce.blocks, honce.places⟩

end Executing
namespace Concrete

/-- Five blocks with the first list of commands of a table, each certified by the next one. -/
def executedBlocks : List (BlockData Nat Signature) :=
  paidBlocks [0, 1, 2] ++ [ownBlock 4 (cert [0, 1, 2] 4) 0]

/-- Primitives for these blocks. -/
def executed : Primitives Nat Signature := primitives executedBlocks [[command 1]]

/-- Replica 0 gets a block and delivers it. -/
def takeIn (h : Nat) : List (Call Nat Signature) :=
  (executedBlocks[h - 1]?.toList.map .addBlk) ++ [.onDeliverBlk h]

/-- The slices of the first block. -/
def firstSlices : List (Call Nat Signature) :=
  (commandProposals 3 1 [command 1]).map fun prop => .onReceiveSlice prop.slice

/-- Replica 0 gets the five blocks, the slices of the first and the proposals of the last three, with
an exception at one point of the commit loop whenever some of the proposals reach it. -/
def executingCalls (proposals : List Nat) (point : CommitPoint Nat) :
    List (Call Nat Signature × (CommitPoint Nat → Option Error)) :=
  (([1, 2, 3, 4, 5].flatMap takeIn ++ firstSlices).map fun i => (i, fun _ => none)) ++
    [3, 4, 5].map fun h => (.onReceiveProposal (offered executedBlocks h),
      fun p => if h ∈ proposals ∧ p = point then some .outOfRange else none)

/-- The blocks and the places of commands that have been handed over. -/
def handed (s : Executing Nat Signature) : List Nat × List (Nat × Nat) :=
  (consensusLog s.log, (decideLog s.log).map Finality.place)

set_option maxRecDepth 100000 in
theorem interrupted_run :
    (Transition.runBy (Executing.step executed)
      (fun s e => s.core.firstTime executed s.log e.1 = true)
      (Executing.start executed noCert [10, 11, 12, 13] 10 0)
      (executingCalls [5] (.doConsensus 2))).map handed = some ([1, 2], [(1, 0)]) := by
  decide +kernel

/-- `do_consensus` throws for block 2, after block 1 has been committed. -/
theorem commits_once_interrupted : ∃ s : Executing Nat Signature, handed s = ([1, 2], [(1, 0)]) ∧
    (consensusLog s.log).Nodup ∧ ((decideLog s.log).map Finality.place).Nodup := by
  obtain ⟨s, hreach, hseen⟩ := Transition.runBy_map_reaches interrupted_run
  exact ⟨s, hseen, Executing.commits_once hreach⟩

set_option maxRecDepth 100000 in
theorem repeating_run :
    (Transition.runBy (Executing.step executed) (fun _ _ => True)
      (Executing.start executed noCert [10, 11, 12, 13] 10 0)
      (executingCalls [4, 5] (.get 1))).map handed = some ([1, 1], []) := by
  decide +kernel

/-- The decoding of block 1 throws in `get`, each time that it is called. The block is decided the
first time, and `b_exec` still below it; the next `update` goes through it once more. -/
theorem repeated_consensus : ∃ s : Executing Nat Signature,
    Transition.Reaches (Executing.step executed) (fun _ _ => True)
      (Executing.start executed noCert [10, 11, 12, 13] 10 0) s ∧
      ¬ (consensusLog s.log).Nodup := by
  obtain ⟨s, hreach, hseen⟩ := Transition.runBy_map_reaches repeating_run
  have hlog : consensusLog s.log = [1, 1] := congrArg Prod.fst hseen
  refine ⟨s, hreach, ?_⟩
  rw [hlog]
  decide

end Concrete
end LibHotStuff
