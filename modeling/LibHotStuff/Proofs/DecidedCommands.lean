import LibHotStuff.Proofs.FailedProposals
import LibHotStuff.Proofs.Pruning
import LibHotStuff.Proofs.SliceFlow

/-! What is decided for a committed block when every replica follows the code. -/

namespace LibHotStuff

open Chain

variable {H Sig : Type} {P : Primitives H Sig} {n : Nat}

/-- Block `h` has been made of these commands. -/
def Primitives.Commands (P : Primitives H Sig) (h : H) (cmds : List UInt256) : Prop :=
  ∃ data, P.hashBlock data = h ∧ data.cmds = [P.hashCommands cmds]

theorem Primitives.Commands.unique {h : H} {cmds cmds' : List UInt256} (hc : P.Commands h cmds)
    (hc' : P.Commands h cmds') : cmds = cmds' := by
  obtain ⟨data, hdata, hcmds⟩ := hc
  obtain ⟨data', hdata', hcmds'⟩ := hc'
  obtain rfl := P.hashBlock_injective (hdata.trans hdata'.symm)
  rw [hcmds] at hcmds'
  exact P.hashCommands_injective (List.cons.inj hcmds').1

theorem Primitives.Shards.commands {h : H} {cmds : List UInt256} {S : List Bytes}
    (hs : P.Shards n h cmds S) : P.Commands h cmds := by
  obtain ⟨data, hdata, hcmds, _⟩ := hs
  exact ⟨data, hdata, hcmds⟩

variable [DecidableEq H]

namespace Core

variable {c u : Core H Sig} {nblk : H}

/-- Each block that `update` is about to commit has its commands decoded, or has none and no
future. -/
def paysQueue (P : Primitives H Sig) (c : Core H Sig) (nblk : H) : Bool :=
  (c.commitQueue nblk).all fun b =>
    match c.futures b with
    | some (.ok _) => true
    | some (.error _) => false
    | none => (c.storage b).any fun blk => decide (blk.cmds = [P.hashCommands []])

/-- An `update` of the call has the commands of all blocks that it commits. -/
def pays (P : Primitives H Sig) (c : Core H Sig) : Call H Sig → Bool
  | .onReceiveProposal prop => (c.onReceiveSlice P prop.slice).core.paysQueue P prop.blk
  | .onPropose cmds parents extra =>
    (c.beforeOwnUpdate P cmds parents extra).paysQueue P
      (P.hashBlock (c.proposedData P cmds parents extra))
  | _ => true

/-- The commands of a block have been decoded, or it has none. -/
def Payable (P : Primitives H Sig) (c : Core H Sig) (b : H) : Prop :=
  (∃ cmds, c.futures b = some (.ok cmds)) ∨ c.futures b = none ∧ P.Commands b []

omit [DecidableEq H] in
theorem Payable.pending (h : c.Payable P nblk) (hg : c.Genuine P n) :
    P.Commands nblk (c.pending nblk) := by
  obtain ⟨cmds, hok⟩ | ⟨hnone, hcmds⟩ := h
  · obtain ⟨S, hshards⟩ := hg.decoded nblk cmds hok
    rw [pending_ok hok]
    exact hshards.commands
  · rw [pending_nil fun cmds hok => nomatch hnone.symm.trans hok]
    exact hcmds

/-- A commit with the commands of all its blocks. -/
def PaysCommit (P : Primitives H Sig) (c : Core H Sig) (nblk : H) : Prop :=
  ∀ b r done, c.CommitsTo P nblk b r done → ∀ x ∈ done, c.Payable P x

/-- What `update` does before the commit does not touch the futures of the blocks that it
commits. -/
theorem Prepared.paysCommit {outs : List (Output H Sig)} (h : c.Prepared P nblk u outs)
    (hc : c.WellFormed P) (hpays : c.paysQueue P nblk = true) : u.PaysCommit P nblk := by
  intro b r done hto x hx
  have hu := h.wellFormed hc
  have hexec : u.bExec = c.bExec := by rw [h.rest]
  have hqueue : c.commitQueue nblk = path P.parent (u.height b - u.height u.bExec) b := by
    rw [← hto.commitQueue_eq hu, commitQueue_congr h.storage hexec]
  have hpath : x ∈ path P.parent (u.height b - u.height u.bExec) b :=
    List.mem_reverse.mp (hto.committed.queueDone.subset hx)
  obtain ⟨_, _, hmem⟩ := hto.queue hu
  obtain ⟨_, habove, _⟩ := hmem x (List.mem_reverse.mpr hpath)
  have hbd := (hto.queue_delivered hu).1
  -- the block that is decoded now is the child of the highest block of the queue
  have hfutures : u.futures x = c.futures x := by
    obtain heq | ⟨_, _, _, _, heq⟩ := h.futures
    · rw [heq]
    · rw [heq, Function.update_of_ne]
      rintro rfl
      obtain ⟨b₁, b₂, rfl, hp₂, hj₂, hp₁, _⟩ := hto.completes
      rw [hj₂] at hpath
      obtain ⟨i, _, hup⟩ := (mem_path hto.onExec).mp hpath
      have hroot := hu.dag.onChain_genesis hbd
      have hbelow := depth_up P.parent_genesis hup hroot
      have hchild := depth_parent P.parent_genesis hroot hp₁
      omega
  have hpay := List.all_eq_true.mp hpays x (hqueue ▸ hpath)
  rw [Payable, hfutures]
  split at hpay
  · rename_i cmds hok
    exact Or.inl ⟨cmds, hok⟩
  · cases hpay
  · rename_i hnone
    have hgen : x ≠ P.genesisHash := by
      rintro rfl
      have hzero : P.depth P.genesisHash = 0 := depth_root P.parent_genesis
      omega
    cases hblk : c.storage x with
    | none =>
      rw [hblk] at hpay
      cases hpay
    | some blk =>
      rw [hblk] at hpay
      exact Or.inr ⟨hnone, blk.toBlockData, hc.dag.hashed hblk hgen, of_decide_eq_true hpay⟩

/-- The rules with commits of this kind. -/
def payingRules (P : Primitives H Sig) : Rules H Sig :=
  { Rules.any H Sig with commit := fun c nblk => c.PaysCommit P nblk }

theorem pays_follows (hc : c.WellFormed P) {i : Call H Sig}
    (hpar : ∀ cmds parents extra, i = .onPropose cmds parents extra → parents.all c.delivered = true)
    (hpays : c.pays P i = true) : c.Follows P (payingRules P) i := by
  cases i with
  | onReceiveProposal prop =>
    exact ⟨fun _ => trivial,
      fun _ _ hprep => hprep.paysCommit (onReceiveSlice_wellFormed hc prop.slice) hpays,
      fun _ => trivial⟩
  | onPropose cmds parents extra =>
    rintro bnew rfl
    refine ⟨trivial, fun _ _ _ => trivial, fun _ _ hprep => hprep.paysCommit ?_ hpays,
      fun _ _ _ _ => trivial⟩
    cases hp₀ : parents.head? with
    | none =>
      rw [beforeOwnUpdate, hp₀]
      exact hc
    | some p₀ => exact (beforeOwnUpdate_grows hc hp₀ (hpar _ _ _ rfl) rfl).1.wellFormed
  | _ => trivial

end Core

namespace Party

variable {D : Deployment} {R : Rules H Sig} {w : Parties H Sig} {p p' : Party H Sig}

/-- An act executes and decides nothing, or it is a commit or a part of one. -/
theorem Act.commits_cases (h : p.Act P D R w p') :
    consensusLog p'.outs = consensusLog p.outs ∧ decideLog p'.outs = decideLog p.outs ∨
      ∃ nblk b r done, p.core.CommitsTo P nblk b r done ∧ R.commit p.core nblk ∧
        p'.outs = p.outs ++ r.outs := by
  have silent {o : List (Output H Sig)} (hcons : consensusLog o = []) (hdecs : decideLog o = []) :
      consensusLog (p.outs ++ o) = consensusLog p.outs ∧
        decideLog (p.outs ++ o) = decideLog p.outs := by
    rw [consensusLog_append, decideLog_append, hcons, hdecs, List.append_nil, List.append_nil]
    exact ⟨rfl, rfl⟩
  cases h with
  | move hm =>
    cases hm with
    | pre hm =>
      cases hm with
      | shards _ => exact Or.inl (silent rfl rfl)
      | slice _ _ => exact Or.inl (silent rfl rfl)
      | prepare _ hprep =>
        left
        obtain ho | ho := hprep.outs_eq
        · rw [ho]
          exact silent rfl rfl
        · rw [ho]
          exact silent rfl rfl
      | propose _ _ _ _ => exact Or.inl (silent rfl rfl)
    | commit hto hrule _ => exact Or.inr ⟨_, _, _, _, hto, hrule, rfl⟩
  | cut hto hrule _ => exact Or.inr ⟨_, _, _, _, hto, hrule, rfl⟩
  | raise => exact Or.inl (silent rfl rfl)
  | breach => exact Or.inl ⟨rfl, rfl⟩
  | vote => exact Or.inl ⟨rfl, rfl⟩
  | store => exact Or.inl ⟨rfl, rfl⟩
  | deliver => exact Or.inl ⟨rfl, rfl⟩
  | count => exact Or.inl ⟨rfl, rfl⟩

/-- Every act decides the commands of the blocks that it executes. -/
theorem Act.settles (h : p.Act P D R w p') (hc : p.core.WellFormed P)
    (hex : p.core.Executed P p.outs) (hg : p.core.Genuine P n) (hs : p.Settles P P.Commands)
    (hcommit : ∀ c nblk, R.commit c nblk → c.PaysCommit P nblk) : p'.Settles P P.Commands := by
  have hid := (h.le hc).id
  obtain ⟨hcons, hdecs⟩ | ⟨nblk, b, r, done, hto, hrule, houts⟩ := h.commits_cases
  · exact hs.silent hid hcons hdecs
  · apply hs.commit hc hex hto hid houts
    exact fun x hx => (hcommit _ _ hrule b r done hto x hx).pending hg

end Party

namespace Parties

variable {D : Deployment} {R : Rules H Sig} {dummy : QuorumCert H Sig} {w : Parties H Sig}

/-- In every run in which the slices are shards of their blocks and each commit has the commands of
all its blocks, replicas decide the commands of the blocks that they execute. -/
theorem Reached.settles
    (mds : P.leopard.Mds (RSE.setParams D.n).originalCount (RSE.setParams D.n).recoveryCount)
    (hslice : ∀ s, R.slice s → s.validate P.sha256Hex = true → s.Genuine P D.n)
    (hcommit : ∀ c nblk, R.commit c nblk → c.PaysCommit P nblk)
    (h : Reached P D R dummy w) {r : ReplicaID} (hr : D.Correct r) :
    (w r).Settles P P.Commands := by
  refine Reached.invariant (J := fun _ _ p => p.Settles P P.Commands) h
    (fun _ _ => ⟨fun _ => [], rfl, nofun⟩) (fun _ _ _ _ _ hs => hs) ?_ r hr
  intro w r p hreach hs hr hstuck hact _
  have hv := Reached.valid hreach hr
  have hd := Reached.decided mds hslice hreach hr
  exact hact.settles hv.wellFormed (hv.executed hstuck) hd.genuine (hs r hr) hcommit

end Parties

namespace Sys

variable [DecidableEq Sig] {D : Deployment} {dummy : QuorumCert H Sig} {s s' : Sys H Sig}
  {built : List (H × List UInt256)} {e : Event H Sig}

/-- An `update` of the event has the commands of all blocks that it commits. -/
def pays (P : Primitives H Sig) (s : Sys H Sig) (e : Event H Sig) : Bool :=
  e.call?.all fun i => (s.node e.at_).core.pays P i

/-- The slices that correct replicas send are shards of their blocks. -/
def Truthful (P : Primitives H Sig) (D : Deployment) (s : Sys H Sig) : Prop :=
  ∀ r, D.Correct r → ∀ sl ∈ (s.node r).slices, sl.validate P.sha256Hex = true → sl.Genuine P D.n

/-- The stored blocks have been built by `on_propose`, each of its commands. -/
structure Built (P : Primitives H Sig) (D : Deployment) (s : Sys H Sig)
    (built : List (H × List UInt256)) : Prop where
  stored : ∀ r, D.Correct r → ∀ h, ((s.node r).core.storage h).isSome → h ≠ P.genesisHash →
    ∃ cmds, (h, cmds) ∈ built
  commands : ∀ h cmds, (h, cmds) ∈ built → P.Commands h cmds

omit [DecidableEq H] [DecidableEq Sig] in
theorem correct_of_all (hall : D.byzantine = ∅) {src : ReplicaID} (hsrc : src < D.n) :
    D.Correct src := by
  refine ⟨hsrc, ?_⟩
  rw [hall]
  exact Finset.notMem_empty src

/-- A replica takes in what another one has sent. -/
theorem Truthful.takesGenuine (h : s.Truthful P D) (hall : D.byzantine = ∅)
    (hstep : s.step P D e = some s') : Replica.takesGenuine P D.n e := by
  obtain ⟨_, nd, hnd, _⟩ := step_inv hstep
  intro sl hsl hvalid
  cases e with
  | receiveProposal r src ord prop =>
    simp only [handle, Option.ite_none_right_eq_some, Bool.and_eq_true, decide_eq_true_eq] at hnd
    obtain ⟨⟨⟨⟨_, hlt⟩, _⟩, hsent⟩, _⟩ := hnd.1
    have hc := correct_of_all hall hlt
    simp only [Replica.sliceIn, Option.ite_none_right_eq_some, Option.some.injEq] at hsl
    obtain ⟨_, rfl⟩ := hsl
    simp only [proposalSent, hc, decide_true, Bool.not_true, Bool.false_or, List.any_eq_true] at hsent
    obtain ⟨o, ho, hprop⟩ := hsent
    refine h src hc prop.slice (Replica.mem_slices.mpr (Or.inl ⟨o, ho, ?_⟩)) hvalid
    split at hprop
    · exact List.mem_map_of_mem (List.mem_of_getElem? (of_decide_eq_true hprop))
    · cases hprop
  | receiveSlice r src hash slice =>
    simp only [handle, Option.ite_none_right_eq_some, Bool.and_eq_true, decide_eq_true_eq] at hnd
    obtain ⟨⟨⟨_, hlt⟩, _⟩, hsent⟩ := hnd.1
    have hc := correct_of_all hall hlt
    simp only [Replica.sliceIn, Option.ite_none_right_eq_some, Option.some.injEq] at hsl
    obtain ⟨_, rfl⟩ := hsl
    simp only [sliceSent, hc, decide_true, Bool.not_true, Bool.false_or, List.any_eq_true] at hsent
    obtain ⟨o, ho, hslice⟩ := hsent
    refine h src hc slice (Replica.mem_slices.mpr (Or.inl ⟨o, ho, ?_⟩)) hvalid
    split at hslice
    · exact List.mem_singleton.mpr (of_decide_eq_true hslice).symm
    · cases hslice
  | fetch _ _ _ => cases hsl
  | deliver _ _ => cases hsl
  | receiveVote _ _ _ => cases hsl
  | propose _ _ _ _ _ => cases hsl
  | asyncQcFinish _ _ => cases hsl
  | runTask _ _ _ => cases hsl

theorem Truthful.step (h : s.Truthful P D) (hall : D.byzantine = ∅) (hreach : s.Reachable P D dummy)
    (hstep : s.step P D e = some s') : s'.Truthful P D := by
  have hgenuine := h.takesGenuine hall hstep
  obtain ⟨hc, nd, hnd, rfl⟩ := step_inv hstep
  obtain ⟨hid, hn, hrse, hwf⟩ := hreach.valid hc
  intro r hr sl hsl hvalid
  by_cases hre : r = e.at_
  swap
  · have hnode : (s.set e.at_ nd).node r = s.node r := by simp [Sys.set, hre]
    rw [hnode] at hsl
    exact h r hr sl hsl hvalid
  subst hre
  have hnode : (s.set e.at_ nd).node e.at_ = nd := by simp [Sys.set]
  rw [hnode] at hsl
  obtain hsub | ⟨i, hmakes, hasks, hsub⟩ := Replica.handle_slices (handle_alone hnd hid hn)
  · exact h _ hr sl (hsub hsl) hvalid
  · obtain hold | hnew := List.mem_append.mp (hsub hsl)
    · exact h _ hr sl hold hvalid
    · have hfollows : (s.node e.at_).core.Follows P ((Rules.any H Sig).genuine P D.n) i := by
        obtain ⟨hi, hheed⟩ | ⟨vote, rfl⟩ := hmakes
        · exact genuine_follows hwf hrse hgenuine hstep hi hheed (follows_any _ i)
        · trivial
      exact Core.call_slices hwf hasks hfollows sl hnew hvalid

omit [DecidableEq Sig] in
/-- What a call stores is stored already, or it is the block of the call. -/
theorem call_stores {c : Core H Sig} (i : Call H Sig) {h : H}
    (hh : ((c.call P i).core.storage h).isSome) : (c.storage h).isSome ∨
      (∃ data, i = .addBlk data ∧ h = P.hashBlock data) ∨
        ∃ cmds p parents extra, i = .onPropose cmds (p :: parents) extra ∧
          h = P.hashBlock (c.proposedData P cmds (p :: parents) extra) := by
  cases i with
  | addBlk data =>
    refine (Core.addBlk_storesOnly c data h hh).imp_right fun heq => Or.inl ⟨data, rfl, ?_⟩
    exact (Option.some.inj heq).symm
  | onDeliverBlk blk => exact (Core.onDeliverBlk_storesOnly c blk none h hh).imp_right nofun
  | onReceiveProposal prop =>
    exact ((Core.onReceiveProposal_sameBlocks c prop).storesOnly none h hh).imp_right nofun
  | onReceiveVote vote => exact (Core.onReceiveVote_storesOnly c vote none h hh).imp_right nofun
  | onReceiveSlice sl =>
    exact ((Core.onReceiveSlice_sameBlocks c sl).storesOnly none h hh).imp_right nofun
  | onPropose cmds parents extra =>
    cases parents with
    | nil => exact Or.inl hh
    | cons p parents =>
      refine (Core.onPropose_storesOnly c cmds (p :: parents) extra h hh).imp_right fun heq => ?_
      exact Or.inr ⟨cmds, p, parents, extra, rfl, (Option.some.inj heq).symm⟩
  | setVoteDisabled f => exact Or.inl hh

theorem Built.step (h : s.Built P D built) (hall : D.byzantine = ∅) (hreach : s.Reachable P D dummy)
    (hstep : s.step P D e = some s') : s'.Built P D ((s.builds P e).toList ++ built) := by
  have hold {x : H} (hx : ∃ cmds, (x, cmds) ∈ built) :
      ∃ cmds, (x, cmds) ∈ (s.builds P e).toList ++ built :=
    hx.imp fun _ hmem => List.mem_append_right _ hmem
  obtain ⟨hc, nd, hnd, rfl⟩ := step_inv hstep
  obtain ⟨hid, hn, _, _⟩ := hreach.valid hc
  refine ⟨fun r hr x hx hgen => ?_, fun x cmds hmem => ?_⟩
  · by_cases hre : r = e.at_
    swap
    · have hnode : (s.set e.at_ nd).node r = s.node r := by simp [Sys.set, hre]
      rw [hnode] at hx
      exact hold (h.stored r hr x hx hgen)
    subst hre
    have hnode : (s.set e.at_ nd).node e.at_ = nd := by simp [Sys.set]
    rw [hnode] at hx
    obtain hcore | ⟨i, hmakes, _, hcore, _⟩ := Replica.handle_call (handle_alone hnd hid hn)
    · rw [hcore] at hx
      exact hold (h.stored _ hr x hx hgen)
    rw [hcore] at hx
    obtain hx | ⟨data, rfl, rfl⟩ | ⟨cmds, p, parents, extra, rfl, rfl⟩ := call_stores i hx
    · exact hold (h.stored _ hr x hx hgen)
    · -- a block that another replica has stored
      obtain ⟨hi, _⟩ | ⟨_, heq⟩ := hmakes
      · cases e with
        | fetch r src data' =>
          obtain rfl : data' = data := by simpa [Event.call?] using hi
          simp only [handle, Option.ite_none_right_eq_some, Bool.and_eq_true, decide_eq_true_eq]
            at hnd
          obtain ⟨⟨⟨_, hlt⟩, hsent⟩, _⟩ := hnd.1
          have hsrc := correct_of_all hall hlt
          simp only [blockSent, hsrc, decide_true, Bool.not_true, Bool.false_or] at hsent
          refine hold (h.stored src hsrc _ ?_ hgen)
          cases hst : (s.node src).core.storage (P.hashBlock data') with
          | none =>
            rw [hst] at hsent
            cases hsent
          | some _ => rfl
        | _ => cases hi
      · cases heq
    · obtain ⟨hi, _⟩ | ⟨_, heq⟩ := hmakes
      · cases e with
        | propose r ord cmds' parents' extra' =>
          simp only [Event.call?, Option.some.injEq, Call.onPropose.injEq] at hi
          obtain ⟨rfl, rfl, rfl⟩ := hi
          exact ⟨cmds', List.mem_append_left _ List.mem_cons_self⟩
        | _ => cases hi
      · cases heq
  · obtain hmem | hmem := List.mem_append.mp hmem
    · cases e with
      | propose r ord cmds' parents extra =>
        cases parents with
        | nil => cases hmem
        | cons p parents =>
          obtain ⟨rfl, rfl⟩ := Prod.mk.inj (List.mem_singleton.mp hmem)
          exact ⟨_, rfl, rfl⟩
      | _ => cases hmem
    · exact h.commands x cmds hmem

omit [DecidableEq Sig] in
theorem init_built (P : Primitives H Sig) (D : Deployment) (dummy : QuorumCert H Sig) :
    (init P D dummy).Built P D [] := by
  refine ⟨fun r _ x hx hgen => ?_, nofun⟩
  have hstart := Core.start_started P r dummy D.replicas (D.listenAddr r)
  change (((Core.new P r dummy).start D.replicas (D.listenAddr r)).storage x).isSome = true at hx
  rw [hstart.others x hgen] at hx
  cases hx

/-- What a run in which every replica follows the code keeps, beside the list of the blocks built:
it is a run of the network, the replicas' blocks and slices are their own, and so is the list. -/
theorem building_run (hall : D.byzantine = ∅) {x : Sys H Sig × List (H × List UInt256)}
    {cond : Sys H Sig × List (H × List UInt256) → Event H Sig → Prop}
    (h : Transition.Reaches (stepBuilding P D) cond (init P D dummy, []) x) :
    (x.1.ReachableBy P D dummy fun s e =>
      (∃ built, cond (s, built) e) ∧ Replica.takesGenuine P D.n e) ∧
      x.1.Truthful P D ∧ x.1.Built P D x.2 := by
  apply h.invariant
  · exact ⟨.refl, fun _ _ _ hsl => (nomatch hsl), init_built P D dummy⟩
  · rintro ⟨s, built⟩ e ⟨s', built'⟩ ⟨hrun, htruth, hbuilt⟩ hcond hstep
    obtain ⟨s₁, hnext, heq⟩ := Option.map_eq_some_iff.mp hstep
    obtain ⟨rfl, rfl⟩ := Prod.mk.inj heq
    have hreach : s.Reachable P D dummy := hrun.mono fun _ _ _ => trivial
    exact ⟨hrun.tail ⟨e, ⟨⟨built, hcond⟩, htruth.takesGenuine hall hnext⟩, hnext⟩,
      htruth.step hall hreach hnext, hbuilt.step hall hreach hnext⟩

/-- No committed command is skipped: let every replica follow the code. In every run in which each
`update` has the commands of all blocks that it commits, a replica that has committed a block has
called `do_decide` for it exactly with the commands that the block has been built of, in order. -/
theorem commands_decided (hall : D.byzantine = ∅)
    (mds : P.leopard.Mds (RSE.setParams D.n).originalCount (RSE.setParams D.n).recoveryCount)
    (h : Transition.Reaches (stepBuilding P D) (fun x e => x.1.pays P e = true)
      (init P D dummy, []) (s, built))
    {r : ReplicaID} (hr : r < D.n) {b : H} (hb : b ∈ consensusLog (s.node r).log) :
    (∃ cmds, (b, cmds) ∈ built) ∧ ∀ cmds, (b, cmds) ∈ built →
      (decideLog (s.node r).log).filter (fun f => decide (f.blkHash = b)) =
        (s.node r).core.finalities b cmds := by
  obtain ⟨hrun, _, hbuilt⟩ := building_run hall h
  obtain ⟨w, hsim⟩ := hrun.genuine_refined (R := Core.payingRules P) (fun _ _ hcond => hcond.2)
    fun s e s' i hcond hstep hwf hi => by
      obtain ⟨_, nd, hnd, _⟩ := step_inv hstep
      obtain ⟨built, hcond⟩ := hcond.1
      have hpays : (s.node e.at_).core.pays P i = true := by simpa [pays, hi] using hcond
      refine Core.pays_follows hwf (fun cmds parents extra heq => ?_) hpays
      subst heq
      cases e with
      | propose r ord cmds' parents' extra' =>
        simp only [Event.call?, Option.some.injEq, Call.onPropose.injEq] at hi
        obtain ⟨rfl, rfl, rfl⟩ := hi
        simp only [handle, Option.ite_none_right_eq_some, Bool.and_eq_true] at hnd
        exact hnd.1.2
      | _ => cases hi
  have hc := correct_of_all hall hr
  have hv := hsim.reached.valid hc
  have hd := hsim.reached.decided mds (fun _ hs => hs) hc
  obtain ⟨g, hg, hcmds⟩ := hsim.reached.settles mds (fun _ hs => hs) (fun _ _ hs => hs) hc
  have hnode := hsim.node r hc
  rw [hnode.consensusLog_eq] at hb
  obtain ⟨hdel, hgen⟩ := hd.executed hv.wellFormed hb
  constructor
  · refine hbuilt.stored r hc b ?_ hgen
    obtain ⟨blk, hblk, _⟩ := Core.stored_of_delivered hdel
    rw [← hnode.core, hblk]
    rfl
  · intro cmds hmem
    obtain rfl := (hbuilt.commands b cmds hmem).unique (hcmds b hb)
    have hlog : decideLog (s.node r).log = decideLog (w r).outs := hsim.decideLog_eq hc
    rw [hlog, hg, P.filter_finalities (hd.nodup hv.wellFormed), if_pos hb, ← hnode.core]
    exact (Core.finalities_eq (hv.wellFormed.dag.height_eq hdel) _).symm

end Sys

namespace Concrete

/-- What is seen at replica 0: the blocks that it has executed, the commands that it has decided,
and the first block that has been built. -/
def seenDecided (x : Sys Nat Signature × List (Nat × List UInt256)) :
    List Nat × List UInt256 × Option (Nat × List UInt256) :=
  (consensusLog (x.1.node 0).log, (decideLog (x.1.node 0).log).map (·.cmdHash), x.2.getLast?)

/-- Replica 0 makes three blocks and gets the slices for them, and then it makes the fourth one. -/
def ownCommit : List (Event Nat Signature) :=
  [1, 2, 3].flatMap (payRound (paidBlocks [0, 1, 2]) [1, 2] [command 1]) ++
    [.propose 0 [] [command 1] [3] [0]]

set_option maxRecDepth 100000 in
theorem decided_run :
    (Transition.runBy (Sys.stepBuilding (paid [0, 1, 2]) fourCorrect)
      (fun x e => x.1.pays (paid [0, 1, 2]) e = true)
      (Sys.init (paid [0, 1, 2]) fourCorrect noCert, []) ownCommit).map seenDecided =
        some ([1], [command 1], some (1, [command 1])) := by
  decide +kernel

/-- The slices come in time, and replica 0 decides the command of the first block. -/
theorem commands_decided_paid : ∃ s : Sys Nat Signature, 1 ∈ consensusLog (s.node 0).log ∧
    (decideLog (s.node 0).log).filter (fun f => decide (f.blkHash = 1)) =
      (s.node 0).core.finalities 1 [command 1] := by
  obtain ⟨⟨s, built⟩, hreach, hseen⟩ := Transition.runBy_map_reaches decided_run
  obtain ⟨hlog, hrest⟩ := Prod.mk.inj hseen
  have hmem : 1 ∈ consensusLog (s.node 0).log := hlog.symm ▸ List.mem_singleton_self 1
  have hbuilt : (1, [command 1]) ∈ built := List.mem_of_getLast? (Prod.mk.inj hrest).2
  obtain ⟨_, hdecided⟩ :=
    Sys.commands_decided rfl (xorLeopard_mds 3) hreach (r := 0) (by decide) hmem
  exact ⟨s, hmem, hdecided _ hbuilt⟩

set_option maxRecDepth 100000 in
/-- Without the slices of the others. -/
theorem skipped_run :
    (Transition.runBy (Sys.stepBuilding (paid [0, 1, 2]) fourCorrect) (fun _ _ => True)
      (Sys.init (paid [0, 1, 2]) fourCorrect noCert, []) (paidRun [])).map seenDecided =
        some ([1], [], some (1, [command 1])) := by
  decide +kernel

/-- All four replicas follow the code. Replica 0 commits its first block before the slices of the
others arrive, and never decides the command of which it has built the block. -/
theorem commands_skipped : ∃ x : Sys Nat Signature × List (Nat × List UInt256),
    Transition.Reaches (Sys.stepBuilding (paid [0, 1, 2]) fourCorrect) (fun _ _ => True)
      (Sys.init (paid [0, 1, 2]) fourCorrect noCert, []) x ∧
    1 ∈ consensusLog (x.1.node 0).log ∧ (1, [command 1]) ∈ x.2 ∧
      decideLog (x.1.node 0).log = [] := by
  obtain ⟨x, hreach, hseen⟩ := Transition.runBy_map_reaches skipped_run
  obtain ⟨hlog, hrest⟩ := Prod.mk.inj hseen
  obtain ⟨hdecided, hbuilt⟩ := Prod.mk.inj hrest
  exact ⟨x, hreach, hlog.symm ▸ List.mem_singleton_self 1, List.mem_of_getLast? hbuilt,
    List.map_eq_nil_iff.mp hdecided⟩

end Concrete
end LibHotStuff
