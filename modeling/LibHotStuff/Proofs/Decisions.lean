import LibHotStuff.Proofs.Genuine
import LibHotStuff.Proofs.Refinement

namespace LibHotStuff

open Chain

variable {H Sig : Type} {P : Primitives H Sig} {n : Nat}

/-- The values given to `do_decide` for a block with some commands. -/
noncomputable def Primitives.finalities (P : Primitives H Sig) (id : ReplicaID) (b : H)
    (cmds : List UInt256) : List (Finality H) :=
  cmds.mapIdx fun i cmd =>
    { rid := id, decision := 1, cmdIdx := i, cmdHeight := P.depth b, cmdHash := cmd, blkHash := b }

theorem Core.finalities_eq {c : Core H Sig} {b : H} (h : c.height b = P.depth b)
    (cmds : List UInt256) : c.finalities b cmds = P.finalities c.id b cmds := by
  rw [Core.finalities, Primitives.finalities, h]

theorem Deployment.bounds (D : Deployment) : 0 < D.n ∧ D.n < 2 ^ 32 := by
  have hpos := D.nonempty
  have hwidth := D.idWidth
  rw [Deployment.n]
  omega

/-- The blocks of a chain are different. -/
theorem Core.WellFormed.chain_nodup {c : Core H Sig} (hc : c.WellFormed P) {b : H}
    (hb : c.delivered b = true) : ((path P.parent (P.depth b) b).reverse).Nodup := by
  have hroot := hc.dag.onChain_genesis hb
  have hpair := path_pairwise P.parent_genesis (up_depth P.parent_genesis hroot) hroot
  rw [List.nodup_reverse]
  apply hpair.imp
  intro x y hlt heq
  rw [heq] at hlt
  exact Nat.lt_irrefl _ hlt

/-- What has been decided are commands of the executed blocks, in order, of which each block and its
commands are in a relation. -/
def Party.Settles (P : Primitives H Sig) (Q : H → List UInt256 → Prop) (p : Party H Sig) : Prop :=
  ∃ g : H → List UInt256,
    decideLog p.outs = ((consensusLog p.outs).flatMap fun b => P.finalities p.core.id b (g b)) ∧
      ∀ b ∈ consensusLog p.outs, Q b (g b)

namespace Party

variable {p p' : Party H Sig}

/-- A commit executes blocks that have not been executed before. -/
theorem commit_chain (hc : p.core.WellFormed P) (hex : p.core.Executed P p.outs) {nblk b : H}
    {r : Res H Sig} {done : List H} (hto : p.core.CommitsTo P nblk b r done)
    (houts : p'.outs = p.outs ++ r.outs) :
    consensusLog p'.outs = consensusLog p.outs ++ done ∧ (∀ x ∈ consensusLog p.outs, x ∉ done) ∧
      consensusLog p.outs ++ done <+: (path P.parent (P.depth b) b).reverse := by
  obtain ⟨hdepth, _, _⟩ := hto.queue hc
  have hb := (hto.queue_delivered hc).1
  have hwhole : (path P.parent (P.depth b) b).reverse =
      consensusLog p.outs ++ (path P.parent (p.core.height b - p.core.height p.core.bExec) b).reverse := by
    rw [hex.log_eq, ← List.reverse_append, ← path_add hto.onExec, ← hdepth]
  have hnodup := hc.chain_nodup hb
  have hdone := hto.committed.queueDone
  rw [hwhole] at hnodup ⊢
  obtain ⟨_, _, hdisj⟩ := List.nodup_append.mp hnodup
  refine ⟨by rw [houts, consensusLog_append, hto.committed.log], fun x hx hxd => ?_, ?_⟩
  · exact hdisj x hx x (hdone.subset hxd) rfl
  · exact (List.prefix_append_right_inj _).mpr hdone

/-- A commit, or the part of it before a fault, decides what waits for it. -/
theorem Settles.commit [DecidableEq H] {Q : H → List UInt256 → Prop} (h : p.Settles P Q)
    (hc : p.core.WellFormed P) (hex : p.core.Executed P p.outs) {nblk b : H} {r : Res H Sig} {done : List H}
    (hto : p.core.CommitsTo P nblk b r done) (hid : p'.core.id = p.core.id)
    (houts : p'.outs = p.outs ++ r.outs) (hQ : ∀ x ∈ done, Q x (p.core.pending x)) :
    p'.Settles P Q := by
  obtain ⟨g, hg, hall⟩ := h
  obtain ⟨hcons, hnew, _⟩ := commit_chain hc hex hto houts
  obtain ⟨_, _, hmem⟩ := hto.queue hc
  have hdone := hto.committed.queueDone
  refine ⟨fun x => if x ∈ done then p.core.pending x else g x, ?_, fun x hx => ?_⟩
  · rw [hcons, List.flatMap_append, houts, decideLog_append, hid, hg,
      hto.committed.decides (hto.queue_nodup hc)]
    congr 1
    · apply List.flatMap_congr
      intro x hx
      dsimp only
      rw [if_neg (hnew x hx)]
    · apply List.flatMap_congr
      intro x hx
      dsimp only
      rw [if_pos hx, Core.finalities_eq (hmem x (hdone.subset hx)).1]
  · dsimp only
    split
    · rename_i hxd
      exact hQ x hxd
    · rename_i hxd
      rw [hcons] at hx
      exact hall x ((List.mem_append.mp hx).resolve_right hxd)

theorem Settles.silent {Q : H → List UInt256 → Prop} (h : p.Settles P Q)
    (hid : p'.core.id = p.core.id) (hcons : consensusLog p'.outs = consensusLog p.outs)
    (hdecs : decideLog p'.outs = decideLog p.outs) : p'.Settles P Q := by
  rw [Settles, hcons, hdecs, hid]
  exact h

end Party

/-- What a replica has decided: for each block of a chain, in order, nothing or the commands of the
block. -/
structure Party.Decided (P : Primitives H Sig) (n : Nat) (p : Party H Sig) : Prop where
  genuine : p.core.Genuine P n
  chain : ∃ tip, p.core.delivered tip = true ∧
    consensusLog p.outs <+: (path P.parent (P.depth tip) tip).reverse
  decides : ∃ g : H → List UInt256,
    decideLog p.outs = ((consensusLog p.outs).flatMap fun b => P.finalities p.core.id b (g b)) ∧
      ∀ b ∈ consensusLog p.outs, g b = [] ∨ ∃ S, P.Shards n b (g b) S

namespace Party.Decided

variable {p p' : Party H Sig}

/-- Nothing has been executed or decided. -/
theorem silent (h : p.Decided P n) (hgenuine : p'.core.Genuine P n)
    (hid : p'.core.id = p.core.id) (hdel : ∀ x, p.core.delivered x = true → p'.core.delivered x = true)
    (hcons : consensusLog p'.outs = consensusLog p.outs)
    (hdecs : decideLog p'.outs = decideLog p.outs) : p'.Decided P n where
  genuine := hgenuine
  chain := by
    obtain ⟨tip, htip, hpre⟩ := h.chain
    rw [hcons]
    exact ⟨tip, hdel tip htip, hpre⟩
  decides := by
    rw [hcons, hdecs, hid]
    exact h.decides

variable [DecidableEq H]

/-- A commit, or the part of it before a fault. -/
theorem commit (h : p.Decided P n) (hc : p.core.WellFormed P) (hex : p.core.Executed P p.outs)
    {nblk b : H} {r : Res H Sig} {done : List H} (hto : p.core.CommitsTo P nblk b r done)
    (hgenuine : p'.core.Genuine P n) (hid : p'.core.id = p.core.id)
    (hdel : ∀ x, p.core.delivered x = true → p'.core.delivered x = true)
    (houts : p'.outs = p.outs ++ r.outs) : p'.Decided P n := by
  obtain ⟨hcons, _, hpre⟩ := commit_chain hc hex hto houts
  have hpending (x : H) : p.core.pending x = [] ∨ ∃ S, P.Shards n x (p.core.pending x) S := by
    cases hx : p.core.futures x with
    | none => exact Or.inl (Core.pending_nil (by simp [hx]))
    | some e =>
      cases e with
      | error f => exact Or.inl (Core.pending_nil (by simp [hx]))
      | ok cmds =>
        right
        rw [Core.pending_ok hx]
        exact h.genuine.decoded x cmds hx
  have hsettles : p.Settles P fun x cmds => cmds = [] ∨ ∃ S, P.Shards n x cmds S := h.decides
  exact ⟨hgenuine, ⟨b, hdel b (hto.queue_delivered hc).1, by rwa [hcons]⟩,
    hsettles.commit hc hex hto hid houts fun x _ => hpending x⟩

end Party.Decided

namespace Party

variable [DecidableEq H] {D : Deployment} {R : Rules H Sig} {w : Parties H Sig} {p p' : Party H Sig}
  (mds : P.leopard.Mds (RSE.setParams D.n).originalCount (RSE.setParams D.n).recoveryCount)
  (hslice : ∀ s, R.slice s → s.validate P.sha256Hex = true → s.Genuine P D.n)
include mds hslice

/-- Every act keeps it. -/
theorem Act.decided (h : p.Act P D R w p') (hc : p.core.WellFormed P)
    (hex : p.core.Executed P p.outs) (hd : p.Decided P D.n) : p'.Decided P D.n := by
  have hle := h.le hc
  obtain ⟨hn, hn'⟩ := D.bounds
  have hcons {o : List (Output H Sig)} (ho : consensusLog o = []) :
      consensusLog (p.outs ++ o) = consensusLog p.outs := by
    rw [consensusLog_append, ho, List.append_nil]
  have hdecs {o : List (Output H Sig)} (ho : decideLog o = []) :
      decideLog (p.outs ++ o) = decideLog p.outs := by
    rw [decideLog_append, ho, List.append_nil]
  cases h with
  | move hm =>
    cases hm with
    | pre hm =>
      cases hm with
      | shards ht =>
        obtain ⟨rc, hok⟩ := ht.inserted
        have hsc := hd.genuine.shards.insertShard mds (hslice _ ht.rule ht.valid) hok
        exact hd.silent ⟨hd.genuine.rse, hsc, hd.genuine.decoded⟩ rfl (fun _ hx => hx) (hcons rfl)
          (hdecs rfl)
      | slice _ _ => exact hd.silent hd.genuine rfl (fun _ hx => hx) (hcons rfl) (hdecs rfl)
      | prepare _ hprep =>
        have houts := hprep.outs_eq
        refine hd.silent (hprep.genuine mds hn hn' hd.genuine) hle.id hle.delivered (hcons ?_) (hdecs ?_)
        · obtain ho | ho := houts
          · rw [ho]
            rfl
          · rw [ho]
            rfl
        · obtain ho | ho := houts
          · rw [ho]
            rfl
          · rw [ho]
            rfl
      | propose hg _ _ _ =>
        have hq := hg.quiet
        exact hd.silent (hd.genuine.of_eq hq.rse hq.sc hq.futures) hle.id hle.delivered (hcons rfl)
          (hdecs rfl)
    | commit hto _ _ =>
      have hg := hto.committed.genuine hd.genuine
      exact hd.commit hc hex hto (hg.of_eq rfl rfl rfl) hle.id hle.delivered rfl
  | cut hto _ _ =>
    exact hd.commit hc hex hto (hto.committed.genuine hd.genuine) hle.id hle.delivered rfl
  | breach => exact hd.silent hd.genuine rfl (fun _ hx => hx) rfl rfl
  | vote => exact hd.silent (hd.genuine.of_eq rfl rfl rfl) rfl (fun _ hx => hx) rfl rfl
  | @store data _ _ =>
    have hq := (Core.addBlk_grows hc data).1.quiet
    exact hd.silent (hd.genuine.of_eq hq.rse hq.sc hq.futures) hle.id hle.delivered rfl rfl
  | deliver hdel =>
    have hq := (Core.deliver_grows hc hdel).1.quiet
    exact hd.silent (hd.genuine.of_eq hq.rse hq.sc hq.futures) hle.id hle.delivered rfl rfl
  | count _ _ hk =>
    have hrse := congrArg Core.rse hk.rest
    have hsc := congrArg Core.sc hk.rest
    have hfutures := congrArg Core.futures hk.rest
    exact hd.silent (hd.genuine.of_eq hrse hsc hfutures) hle.id hle.delivered rfl rfl
  | raise => exact hd.silent (hd.genuine.of_eq rfl rfl rfl) rfl (fun _ hx => hx) (hcons rfl) (hdecs rfl)

end Party

namespace Parties

variable [DecidableEq H] {D : Deployment} {R : Rules H Sig} {dummy : QuorumCert H Sig}
  {w : Parties H Sig}

theorem init_decided {r : ReplicaID} (hr : r < D.n) : (init P D dummy r).Decided P D.n := by
  have h := Core.start_started P r dummy D.replicas (D.listenAddr r)
  have hwf := h.wellFormed
  refine ⟨⟨(init_valid P D dummy hr).rse, ⟨⟨?_, ?_⟩, ?_, ?_, ?_⟩, ?_⟩,
    ⟨P.genesisHash, hwf.dag.delivered_genesis, List.nil_prefix⟩, ⟨fun _ => [], rfl, ?_⟩⟩
  · change ((Core.new P r dummy).start D.replicas (D.listenAddr r)).sc.nodenum = _
    rw [h.sc]
    rfl
  · intro x e he
    change ((Core.new P r dummy).start D.replicas (D.listenAddr r)).sc.shards x = some e at he
    rw [h.sc] at he
    cases he
  · change ((Core.new P r dummy).start D.replicas (D.listenAddr r)).sc.threshold = _
    rw [h.sc]
    rfl
  · intro x e he
    change ((Core.new P r dummy).start D.replicas (D.listenAddr r)).sc.shards x = some e at he
    rw [h.sc] at he
    cases he
  · intro x i hi
    change ((Core.new P r dummy).start D.replicas (D.listenAddr r)).sc.shardAt x i ≠ [] at hi
    rw [h.sc] at hi
    exact absurd rfl hi
  · intro x cmds hx
    change ((Core.new P r dummy).start D.replicas (D.listenAddr r)).futures x = _ at hx
    rw [h.futures] at hx
    cases hx
  · intro b hb
    cases hb

/-- In every run in which the slices that are taken in are shards of their blocks, replicas decide
the commands of the blocks. -/
theorem Reached.decided
    (mds : P.leopard.Mds (RSE.setParams D.n).originalCount (RSE.setParams D.n).recoveryCount)
    (hslice : ∀ s, R.slice s → s.validate P.sha256Hex = true → s.Genuine P D.n)
    (h : Reached P D R dummy w) {r : ReplicaID} (hr : D.Correct r) : (w r).Decided P D.n := by
  refine Reached.invariant (J := fun _ _ p => p.Decided P D.n) h (fun r hr => init_decided hr.1)
    (fun _ _ _ _ _ hd => hd) ?_ r hr
  intro w r p hreach hd hr hstuck hact _
  have hv := Reached.valid hreach hr
  exact hact.decided mds hslice hv.wellFormed (hv.executed hstuck) (hd r hr)

end Parties
end LibHotStuff
