import LibHotStuff.Proofs.Concrete
import LibHotStuff.Proofs.Decisions

namespace LibHotStuff

open Chain

variable {H Sig : Type} {P : Primitives H Sig} {n : Nat}

/-- The rules with slices that have the shards of their places. -/
def Rules.genuine (R : Rules H Sig) (P : Primitives H Sig) (n : Nat) : Rules H Sig :=
  { R with slice := fun s => s.validate P.sha256Hex = true → s.Genuine P n }

/-- The slices that a replica takes in have the shards of their places. -/
def Replica.takesGenuine [DecidableEq H] (P : Primitives H Sig) (n : Nat) (e : Event H Sig) : Prop :=
  ∀ s, sliceIn P e = some s → s.validate P.sha256Hex = true → s.Genuine P n

namespace Core

variable {c : Core H Sig} {cmds : List UInt256} {parents : List H} {extra : Bytes}

theorem OwnSlice.genuine {u : Core H Sig} {bnew : H} {i : Nat} {s : Slice H}
    (hs : u.OwnSlice P cmds bnew i s) (hrse : u.rse = RSE.setParams n) (hsize : n ≤ 2 ^ 16)
    (hbnew : P.hashBlock (c.proposedData P cmds parents extra) = bnew) : s.Genuine P n := by
  have hown := hs
  obtain ⟨S, _, henc, _⟩ := hown
  have hshards : P.Shards n bnew cmds S := ⟨_, hbnew, rfl, by rw [← hrse, henc]⟩
  refine ⟨cmds, S, ?_, ?_⟩
  · rw [hs.blkHash]
    exact hshards
  · apply hs.data henc
    rw [hshards.length]
    exact hsize

variable [DecidableEq H]

theorem update_rse (hc : c.WellFormed P) (nblk : H) : (c.update P nblk).core.rse = c.rse := by
  by_cases hd : c.delivered nblk = true
  · exact (update_shrinks hc hd).2
  · have hnone := (hc.dag.not_delivered (by simpa using hd)).1
    unfold update
    split
    · rfl
    · rename_i b hb
      rw [qcRef_of hb] at hnone
      rw [hnone]
      rfl

theorem beforeOwnVote_rse (hc : c.WellFormed P) (hpar : parents.all c.delivered = true) :
    (c.beforeOwnVote P cmds parents extra).rse = c.rse := by
  unfold beforeOwnVote beforeOwnUpdate
  split
  · exact update_rse hc _
  · rename_i p₀ hp₀
    obtain ⟨hno, _⟩ | ⟨c₁, hok, hgrow, _⟩ := storeProposed_delivers hc hp₀
      (rfl : P.hashBlock (c.proposedData P cmds parents extra) = _) rfl
    · rw [hpar] at hno
      cases hno
    · rw [hok]
      exact (update_rse hgrow.wellFormed _).trans hgrow.quiet.rse

end Core

namespace Primitives

/-- What is decided for one block of a chain. -/
theorem filter_finalities [DecidableEq H] (P : Primitives H Sig) {id : ReplicaID} {g : H → List UInt256}
    {l : List H} (hl : l.Nodup) (b : H) :
    ((l.flatMap fun x => P.finalities id x (g x)).filter fun f => decide (f.blkHash = b)) =
      if b ∈ l then P.finalities id b (g b) else [] := by
  induction l with
  | nil => rfl
  | cons x l ih =>
    obtain ⟨hx, hl⟩ := List.nodup_cons.mp hl
    have hmem (y : H) (f : Finality H) (hf : f ∈ P.finalities id y (g y)) : f.blkHash = y := by
      obtain ⟨_, _, rfl⟩ := List.mem_mapIdx.mp hf
      rfl
    rw [List.flatMap_cons, List.filter_append, ih hl]
    by_cases hb : b = x
    · subst hb
      have hall : (P.finalities id b (g b)).filter (fun f => decide (f.blkHash = b)) =
          P.finalities id b (g b) :=
        List.filter_eq_self.mpr fun f hf => decide_eq_true (hmem b f hf)
      rw [if_neg hx, List.append_nil, hall, if_pos List.mem_cons_self]
    · have hnone : (P.finalities id x (g x)).filter (fun f => decide (f.blkHash = b)) = [] := by
        rw [List.filter_eq_nil_iff]
        intro f hf
        rw [decide_eq_true_eq, hmem x f hf]
        exact fun h => hb h.symm
      have hiff : b ∈ x :: l ↔ b ∈ l := by
        rw [List.mem_cons]
        exact or_iff_right hb
      rw [hnone, List.nil_append]
      simp only [hiff]

theorem finalities_cmdHash (P : Primitives H Sig) (id : ReplicaID) (b : H) (cmds : List UInt256) :
    (P.finalities id b cmds).map (·.cmdHash) = cmds := by
  apply List.ext_getElem
  · simp [finalities]
  · intro i _ _
    simp [finalities]

end Primitives

/-- The commands that a replica has decided for a block, in order. -/
def decidedCommands [DecidableEq H] (outs : List (Output H Sig)) (b : H) : List UInt256 :=
  ((decideLog outs).filter fun f => decide (f.blkHash = b)).map (·.cmdHash)

namespace Party

variable [DecidableEq H] {p : Party H Sig}

omit [DecidableEq H] in
theorem Decided.nodup (h : p.Decided P n) (hc : p.core.WellFormed P) :
    (consensusLog p.outs).Nodup := by
  obtain ⟨tip, htip, hpre⟩ := h.chain
  exact (hc.chain_nodup htip).sublist hpre.sublist

omit [DecidableEq H] in
/-- The blocks that have been executed are delivered, and genesis is none of them. -/
theorem Decided.executed (h : p.Decided P n) (hc : p.core.WellFormed P) {b : H}
    (hb : b ∈ consensusLog p.outs) : p.core.delivered b = true ∧ b ≠ P.genesisHash := by
  obtain ⟨tip, htip, hpre⟩ := h.chain
  have hroot := hc.dag.onChain_genesis htip
  have hmem := List.mem_reverse.mp (hpre.subset hb)
  obtain ⟨i, hi, hup⟩ := (mem_path (up_depth P.parent_genesis hroot)).mp hmem
  refine ⟨hc.dag.delivered_onChain htip ⟨i, hup⟩, ?_⟩
  rintro rfl
  have hdepth := depth_up P.parent_genesis hup hroot
  rw [depth_root P.parent_genesis] at hdepth
  omega

/-- What has been decided for a block are the commands whose hash it has. -/
theorem Decided.commands (h : p.Decided P n) (hc : p.core.WellFormed P) {b : H}
    (hne : decidedCommands p.outs b ≠ []) :
    ∃ data, P.hashBlock data = b ∧ data.cmds = [P.hashCommands (decidedCommands p.outs b)] ∧
      ∃ blk, p.core.storage b = some blk ∧ blk.toBlockData = data := by
  obtain ⟨g, hg, hall⟩ := h.decides
  have hlog : decidedCommands p.outs b = if b ∈ consensusLog p.outs then g b else [] := by
    rw [decidedCommands, hg, P.filter_finalities (h.nodup hc)]
    split
    · exact P.finalities_cmdHash _ b (g b)
    · rfl
  rw [hlog] at hne ⊢
  split at hne
  · rename_i hb
    rw [if_pos hb]
    obtain ⟨S, data, hdata, hcmds, _⟩ := (hall b hb).resolve_left hne
    obtain ⟨hd, hgen⟩ := h.executed hc hb
    obtain ⟨blk, hblk, _⟩ := Core.stored_of_delivered hd
    have heq := P.hashBlock_injective ((hc.dag.hashed hblk hgen).trans hdata.symm)
    exact ⟨data, hdata, hcmds, blk, hblk, heq⟩
  · exact absurd rfl hne

end Party

namespace Sys

variable [DecidableEq H] [DecidableEq Sig] {D : Deployment} {R : Rules H Sig} {dummy : QuorumCert H Sig}
  {s s' : Sys H Sig} {w : Parties H Sig}

omit [DecidableEq Sig] in
theorem Sim.decideLog_eq (h : s.Sim P D R dummy w) {r : ReplicaID} (hr : D.Correct r) :
    decideLog (s.node r).log = decideLog (w r).outs := by
  rw [(h.node r hr).outs, decideLog, decideLog, List.filterMap_filter]
  congr 1
  funext o
  cases o <;> rfl

omit [DecidableEq Sig] in
theorem Sim.decidedCommands_eq (h : s.Sim P D R dummy w) {r : ReplicaID} (hr : D.Correct r) (b : H) :
    decidedCommands (s.node r).log b = decidedCommands (w r).outs b := by
  rw [decidedCommands, decidedCommands, h.decideLog_eq hr]

/-- The calls of a replica that takes in genuine slices follow the rules when they follow what the
rules say of other things. -/
theorem genuine_follows {e : Event H Sig} (hwf : (s.node e.at_).core.WellFormed P)
    (hrse : (s.node e.at_).core.rse = RSE.setParams D.n) (hcond : Replica.takesGenuine P D.n e)
    (hstep : s.step P D e = some s') {i : Call H Sig} (hi : e.call? = some i)
    (hheed : e.heeded P = true) (hf : (s.node e.at_).core.Follows P R i) :
    (s.node e.at_).core.Follows P (R.genuine P D.n) i := by
  obtain ⟨_, nd, hnd, _⟩ := step_inv hstep
  cases e with
  | receiveProposal r src ord prop =>
    obtain rfl := Option.some.inj hi
    obtain ⟨_, hcommit, hvote⟩ := hf
    refine ⟨fun hhash => hcond prop.slice ?_, hcommit, hvote⟩
    rw [Replica.sliceIn, if_pos hhash]
  | receiveSlice r src hash slice =>
    obtain rfl := Option.some.inj hi
    refine hcond slice ?_
    rw [Replica.sliceIn, if_pos (of_decide_eq_true hheed)]
  | propose r ord cmds parents extra =>
    obtain rfl := Option.some.inj hi
    simp only [handle, Option.ite_none_right_eq_some, Bool.and_eq_true] at hnd
    rintro bnew hbnew
    obtain ⟨hpropose, _, hcommit, hvote⟩ := hf bnew hbnew
    refine ⟨hpropose, fun i sl hown _ => ?_, hcommit, hvote⟩
    have hsame : ((s.node r).core.beforeOwnVote P cmds parents extra).rse = RSE.setParams D.n :=
      (Core.beforeOwnVote_rse hwf hnd.1.2).trans hrse
    exact hown.genuine hsame D.idWidth hbnew
  | fetch _ _ _ =>
    obtain rfl := Option.some.inj hi
    trivial
  | deliver _ _ =>
    obtain rfl := Option.some.inj hi
    trivial
  | receiveVote _ _ _ =>
    obtain rfl := Option.some.inj hi
    trivial
  | asyncQcFinish _ _ => cases hi
  | runTask _ _ _ => cases hi

/-- A run in which the slices that are taken in are shards of their blocks is matched by acts under
rules that say so. -/
theorem ReachableBy.genuine_refined {cond : Sys H Sig → Event H Sig → Prop}
    (h : s.ReachableBy P D dummy cond)
    (hgenuine : ∀ s e, cond s e → Replica.takesGenuine P D.n e)
    (hf : ∀ s e s' i, cond s e → s.step P D e = some s' → (s.node e.at_).core.WellFormed P →
      e.call? = some i → (s.node e.at_).core.Follows P R i) :
    ∃ w, s.Sim P D (R.genuine P D.n) dummy w := by
  refine h.refined fun s e s' w i hsim hcond hstep hi hheed => ?_
  obtain ⟨hr, _⟩ := step_inv hstep
  have hv := hsim.reached.valid hr
  have hwf := hv.wellFormed
  have hrse := hv.rse
  rw [(hsim.node _ hr).core] at hwf hrse
  exact genuine_follows hwf hrse (hgenuine s e hcond) hstep hi hheed (hf s e s' i hcond hstep hwf hi)

/-- Integrity of decided commands: in every run in which the slices that correct replicas take in
are shards of their blocks, what a correct replica decides for a block is nothing or commands with
the hash that the block has, so no two of them decide different commands. -/
theorem decisions_sound
    (mds : P.leopard.Mds (RSE.setParams D.n).originalCount (RSE.setParams D.n).recoveryCount)
    (h : s.ReachableBy P D dummy fun _ e => Replica.takesGenuine P D.n e) {r : ReplicaID}
    (hr : D.Correct r) (b : H) :
    (decidedCommands (s.node r).log b ≠ [] → ∃ blk, (s.node r).core.storage b = some blk ∧
      blk.cmds = [P.hashCommands (decidedCommands (s.node r).log b)]) ∧
    ∀ r', D.Correct r' → decidedCommands (s.node r).log b ≠ [] →
      decidedCommands (s.node r').log b ≠ [] →
        decidedCommands (s.node r).log b = decidedCommands (s.node r').log b := by
  obtain ⟨w, hsim⟩ := h.genuine_refined (R := .any H Sig) (fun _ _ hcond => hcond)
    fun s e _ i _ _ _ _ => follows_any (s.node e.at_).core i
  have hdecided {i : ReplicaID} (hi : D.Correct i) (hne : decidedCommands (s.node i).log b ≠ []) :
      ∃ data, P.hashBlock data = b ∧
        data.cmds = [P.hashCommands (decidedCommands (s.node i).log b)] ∧
          ∃ blk, (s.node i).core.storage b = some blk ∧ blk.toBlockData = data := by
    have hv := hsim.reached.valid hi
    have hd := hsim.reached.decided mds (fun _ hs => hs) hi
    rw [hsim.decidedCommands_eq hi, ← (hsim.node i hi).core] at *
    exact hd.commands hv.wellFormed hne
  constructor
  · intro hne
    obtain ⟨data, _, hcmds, blk, hblk, rfl⟩ := hdecided hr hne
    exact ⟨blk, hblk, hcmds⟩
  · intro r' hr' hne hne'
    obtain ⟨data, hdata, hcmds, _⟩ := hdecided hr hne
    obtain ⟨data', hdata', hcmds', _⟩ := hdecided hr' hne'
    obtain rfl := P.hashBlock_injective (hdata.trans hdata'.symm)
    rw [hcmds] at hcmds'
    exact P.hashCommands_injective (List.cons.inj hcmds').1

end Sys

namespace Concrete

/-- A slice has the shard of its place, for a block and commands of some tables. -/
def isShard (P : Primitives Nat Signature) (blocks : List (BlockData Nat Signature))
    (commands : List (List UInt256)) (s : Slice Nat) : Bool :=
  blocks.any fun data => commands.any fun cmds =>
    decide (P.hashBlock data = s.mBlkHash) && decide (data.cmds = [P.hashCommands cmds]) &&
      match (RSE.setParams 4).encode P.leopard (Core.encodeInput cmds) with
      | .ok (rst, shards) => decide (rst = 0) && decide (shards[s.place]? = some s.mData)
      | .error _ => false

theorem isShard_genuine {P : Primitives Nat Signature} {blocks : List (BlockData Nat Signature)}
    {commands : List (List UInt256)} {s : Slice Nat} (h : isShard P blocks commands s = true) :
    s.Genuine P 4 := by
  simp only [isShard, List.any_eq_true, Bool.and_eq_true, decide_eq_true_eq] at h
  obtain ⟨data, _, cmds, _, ⟨hdata, hcmds⟩, henc⟩ := h
  split at henc
  · rename_i rst shards hok
    simp only [Bool.and_eq_true, decide_eq_true_eq] at henc
    obtain ⟨rfl, hplace⟩ := henc
    exact ⟨cmds, shards, ⟨data, hdata, hcmds, hok⟩, hplace⟩
  · cases henc

set_option maxRecDepth 100000 in
theorem paid_run :
    (Transition.runBy (Sys.step (paid [0, 1, 2]) fourReplicas)
      (fun _ e => (Replica.sliceIn (paid [0, 1, 2]) e).all
        (isShard (paid [0, 1, 2]) (paidBlocks [0, 1, 2]) [[command 1]]) = true)
      (Sys.init (paid [0, 1, 2]) fourReplicas noCert) (paidRun [1, 2])).map
        (fun s => decidedCommands (s.node 0).log 1) = some [command 1] := by
  decide +kernel

/-- Replica 0 decides the command of block 1. -/
theorem decisions_sound_paid : ∃ s : Sys Nat Signature,
    decidedCommands (s.node 0).log 1 = [command 1] ∧
      ∃ blk, (s.node 0).core.storage 1 = some blk ∧
        blk.cmds = [(paid [0, 1, 2]).hashCommands [command 1]] := by
  obtain ⟨s, hreach, hseen⟩ := Transition.runBy_map_reaches paid_run
  have hgenuine : s.ReachableBy (paid [0, 1, 2]) fourReplicas noCert
      fun _ e => Replica.takesGenuine (paid [0, 1, 2]) fourReplicas.n e := by
    refine hreach.mono fun _ e hcond sl hs _ => ?_
    rw [hs] at hcond
    exact isShard_genuine hcond
  obtain ⟨hcmds, _⟩ :=
    Sys.decisions_sound (xorLeopard_mds 3) hgenuine (r := 0) (by decide) 1
  rw [hseen] at hcmds
  exact ⟨s, hseen, hcmds (List.cons_ne_nil _ _)⟩

/-- Replicas 0 and 1 vote for blocks 1 to 3 of replica 3. It sends replica 2 slices for block 1
that have another command, and then the blocks. -/
def forgedRun : List (Event Nat Signature) :=
  voteAll (paidBlocks [0, 1, 3]) [1, 2, 3] ++
    (((commandProposals 3 1 [command 2]).take 3).map fun prop =>
      .receiveSlice 2 3 prop.sHash prop.slice) ++
    [1, 2, 3, 4].flatMap (adopt (paidBlocks [0, 1, 3]) 3 2) ++
    offer (paidBlocks [0, 1, 3]) 2 3 ++ offer (paidBlocks [0, 1, 3]) 2 4

set_option maxRecDepth 100000 in
theorem forged_command :
    (Transition.runBy (Sys.step (paid [0, 1, 3]) fourReplicas) (fun _ _ => True)
      (Sys.init (paid [0, 1, 3]) fourReplicas noCert) forgedRun).map
        (fun s => (decidedCommands (s.node 2).log 1, ((s.node 2).core.storage 1).map (·.cmds))) =
      some ([command 2], some [(paid [0, 1, 3]).hashCommands [command 1]]) := by
  decide +kernel

/-- Replica 2 decides a command that block 1 does not have. -/
theorem decisions_forged : ∃ s : Sys Nat Signature,
    s.Reachable (paid [0, 1, 3]) fourReplicas noCert ∧ decidedCommands (s.node 2).log 1 ≠ [] ∧
      ¬ ∃ blk, (s.node 2).core.storage 1 = some blk ∧
        blk.cmds = [(paid [0, 1, 3]).hashCommands (decidedCommands (s.node 2).log 1)] := by
  obtain ⟨s, hreach, hseen⟩ := Transition.runBy_map_reaches forged_command
  obtain ⟨hcmds, hblk⟩ := Prod.mk.inj hseen
  refine ⟨s, hreach, ?_, ?_⟩
  · rw [hcmds]
    exact List.cons_ne_nil _ _
  · rintro ⟨blk, hstored, hhash⟩
    rw [hstored, Option.map_some, Option.some.injEq, hhash, hcmds] at hblk
    exact absurd ((paid [0, 1, 3]).hashCommands_injective (List.cons.inj hblk).1) (by decide)

end Concrete
end LibHotStuff
