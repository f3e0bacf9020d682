import LibHotStuff.Proofs.Certificates

namespace LibHotStuff

open Chain

variable {H Sig : Type} [DecidableEq H] {P : Primitives H Sig} {D : Deployment} {R : Rules H Sig}
  {dummy : QuorumCert H Sig} {w w' : Parties H Sig}

namespace Parties

/-- The certificate in a block that a correct replica has voted for: those who made it voted for
the block afterwards, if at all. -/
def Early (P : Primitives H Sig) (D : Deployment) (w : Parties H Sig) (x : H) : Prop :=
  P.justify x = P.genesisHash ∨ ∃ Q : Finset ReplicaID, Q ⊆ Finset.range D.n ∧
    D.n - (D.n - 1) / 3 ≤ Q.card ∧ ∀ r ∈ Q, D.Correct r →
      (w r).Voted (P.justify x) ∧ ((w r).Voted x → P.depth (P.justify x) < P.depth x)

omit [DecidableEq H] in
/-- A vote of replica `r`. -/
theorem voted_update {p : Party H Sig} {r : ReplicaID} {blk l : H} (hp : p.votes = (blk, l) :: (w r).votes)
    {i : ReplicaID} {x : H} (hx : (Function.update w r p i).Voted x) :
    (w i).Voted x ∨ i = r ∧ x = blk := by
  by_cases hi : i = r
  · subst hi
    rw [Function.update_self] at hx
    obtain ⟨l', hl'⟩ := hx
    rw [hp] at hl'
    rcases List.mem_cons.mp hl' with heq | hl'
    · exact Or.inr ⟨rfl, (Prod.mk.inj heq).1⟩
    · exact Or.inl ⟨l', hl'⟩
  · rw [Function.update_of_ne hi] at hx
    exact Or.inl hx

theorem Reached.early (h : Reached P D R dummy w) {r : ReplicaID} (hr : D.Correct r) {x : H}
    (hx : (w r).Voted x) : w.Early P D x := by
  induction h generalizing r x with
  | refl =>
    obtain ⟨l, hl⟩ := hx
    cases hl
  | @tail w w' hreach hstep ih =>
    have hreach' : Reached P D R dummy w := hreach
    have hle := hstep.le fun r hr => hreach'.valid hr
    have voted {i : ReplicaID} {y : H} (hy : (w i).Voted y) : (w' i).Voted y := (hle i).voted hy
    cases hstep with
    | @act r' p hr' _ ha =>
      have hc := (hreach'.valid hr').wellFormed
      rcases ha.votes_cases hc with ⟨hv, _⟩ | ⟨blk, s, happ, _, _, hp⟩
      · -- nobody votes
        have hback {i : ReplicaID} {y : H} (hy : (Function.update w r' p i).Voted y) :
            (w i).Voted y := by
          by_cases hi : i = r'
          · subst hi
            rw [Function.update_self, Party.Voted, hv] at hy
            exact hy
          · rwa [Function.update_of_ne hi] at hy
        exact (ih hr (hback hx)).imp_right fun ⟨Q, hQ, hcard, hall⟩ =>
          ⟨Q, hQ, hcard, fun i hi hci => ⟨voted (hall i hi hci).1, fun hy =>
            (hall i hi hci).2 (hback hy)⟩⟩
      · have hpv : p.votes = (blk, (w r').core.bLock) :: (w r').votes := by rw [hp]
        have hd := happ.delivered hc.dag
        -- the new vote is above all votes that its replica has cast
        have hnew (hj : (w r').Voted (P.justify blk)) : P.depth (P.justify blk) < P.depth blk := by
          obtain ⟨l, hl⟩ := hj
          have hlow := ((hreach'.ballots hr').low _ hl).2
          have hgt := happ.1
          rw [hc.dag.height_eq hd] at hgt
          exact Nat.lt_of_le_of_lt hlow hgt
        have hcase {i : ReplicaID} (hy : (Function.update w r' p i).Voted x)
            (hold : (w i).Voted x → P.depth (P.justify x) < P.depth x)
            (hj : (w i).Voted (P.justify x)) : P.depth (P.justify x) < P.depth x := by
          rcases voted_update hpv hy with hy | ⟨rfl, rfl⟩
          · exact hold hy
          · exact hnew hj
        by_cases hany : ∃ i, D.Correct i ∧ (w i).Voted x
        · obtain ⟨i, hi, hix⟩ := hany
          exact (ih hi hix).imp_right fun ⟨Q, hQ, hcard, hall⟩ =>
            ⟨Q, hQ, hcard, fun i hi hci => ⟨voted (hall i hi hci).1, fun hy =>
              hcase hy (hall i hi hci).2 (hall i hi hci).1⟩⟩
        · rcases voted_update hpv hx with hx | ⟨rfl, rfl⟩
          · exact absurd ⟨r, hr, hx⟩ hany
          · exact ((hreach'.justified hr').delivered _ hd).imp_right fun ⟨Q, hQ, hcard, hall⟩ =>
              ⟨Q, hQ, hcard, fun i hi hci => ⟨voted (hall i hi hci), fun hy =>
                hcase hy (fun hy' => absurd ⟨i, hci, hy'⟩ hany) (hall i hi hci)⟩⟩

/-- A block with a quorum carries a certificate for a lower block. -/
theorem Reached.justify_lower (h : Reached P D R dummy w) {x : H} (hx : w.Quorum D x) :
    P.depth (P.justify x) < P.depth x := by
  obtain ⟨Q, hQ, hcard, hall⟩ := hx
  obtain ⟨r, hr, _, hc⟩ := quorum_inter hQ hQ hcard hcard
  rcases h.early hc (hall r hr hc) with hgen | ⟨Q', hQ', hcard', hall'⟩
  · obtain ⟨l, hl⟩ := hall r hr hc
    rw [hgen, P.depth_genesis]
    exact ((h.ballots hc).low _ hl).1
  · obtain ⟨i, hi, hi', hci⟩ := quorum_inter hQ hQ' hcard hcard'
    exact (hall' i hi' hci).2 (hall i hi hci)

end Parties

namespace Core

variable {c c' : Core H Sig} {outs log : List (Output H Sig)}

/-- The executed, the locked and the certified block, by height. -/
def Ordered (P : Primitives H Sig) (c : Core H Sig) : Prop :=
  P.depth c.bExec ≤ P.depth c.bLock ∧ P.depth c.bLock ≤ P.depth c.hqc.1

omit [DecidableEq H] in
theorem Executed.decided_parent (h : c.Executed P log) (hc : c.WellFormed P) {x p : H}
    (hx : c.decided x = true) (hp : P.parent x = some p) : c.decided p = true := by
  have hup := up_depth P.parent_genesis (hc.dag.onChain_genesis hc.execDelivered)
  change up P.parent (P.depth c.bExec) c.bExec = _ at hup
  rcases (h.decided x).mp hx with rfl | hmem
  · simp at hp
  · rw [h.log_eq, List.mem_reverse, mem_path hup] at hmem
    obtain ⟨i, hi, hix⟩ := hmem
    have hnext : up P.parent (i + 1) c.bExec = some p := by
      rw [up_add, hix]
      exact up_one hp
    rw [h.decided, h.log_eq, List.mem_reverse, mem_path hup]
    rcases Nat.lt_or_eq_of_le (Nat.succ_le_of_lt hi) with hlt | heq
    · exact Or.inr ⟨i + 1, hlt, hnext⟩
    · rw [Nat.succ_eq_add_one] at heq
      rw [heq, hup] at hnext
      exact Or.inl (Option.some.inj hnext).symm

omit [DecidableEq H] in
/-- What is committed lies below the lock. -/
theorem Decides.below_lock {nblk b : H} (hd : c.Decides P nblk b) (hc : c.WellFormed P)
    (hex : c.Executed P log) : P.depth b < P.depth c.bLock := by
  obtain ⟨b₁, b₂, hb₂, hp₂, hj₂, hp₁, hj₁⟩ := hd.completes
  have hd₂ := hd.justifyDelivered
  rw [hb₂] at hd₂
  have hd₁ := hc.dag.delivered_parent hd₂ hp₂
  have hund₁ : ¬ c.decided b₁ = true := fun h => by
    have := hex.decided_parent hc h hp₁
    rw [hd.undecided] at this
    cases this
  have hraised := hd.raised hd.justifyDelivered
  rw [hb₂, hj₂] at hraised
  rcases hraised with h | h | h
  · exact absurd (hex.decided_parent hc h hp₂) hund₁
  · exact absurd h hund₁
  · rw [hc.dag.height_eq hd₁, hc.dag.height_eq hc.lockDelivered] at h
    have := depth_parent P.parent_genesis (hc.dag.onChain_genesis (hd.delivered hc)) hp₁
    change P.depth b₁ = P.depth b + 1 at this
    omega

theorem Prepared.ordered {nblk : H} (hp : c.Prepared P nblk c' outs) (hc : c.WellFormed P)
    (hlow : c.delivered (P.justify nblk) = true → P.justify nblk ≠ P.genesisHash →
      P.depth (P.justify (P.justify nblk)) < P.depth (P.justify nblk))
    (h : c.Ordered P) : c'.Ordered P := by
  have hc' := hp.wellFormed hc
  have hexec : c'.bExec = c.bExec := by
    have hx := congrArg Core.bExec hp.rest
    exact hx
  have hqc : P.depth c.hqc.1 ≤ P.depth c'.hqc.1 := by
    rcases hp.hqc with ⟨heq, _⟩ | ⟨_, hlt, heq, _⟩
    · rw [heq]
    · rw [hc.dag.height_eq hc.hqcDelivered] at hlt
      have := hc.dag.height_le (P.justify nblk)
      rw [heq]
      omega
  rw [Ordered, hexec]
  rcases hp.bLock with heq | ⟨hd, hlt, heq⟩
  · rw [heq]
    exact ⟨h.1, h.2.trans hqc⟩
  · rw [hc.dag.height_eq hc.lockDelivered] at hlt
    have hle := hc.dag.height_le (P.justify (P.justify nblk))
    have hne : P.justify nblk ≠ P.genesisHash := by
      intro hgen
      rw [hgen, P.justify_genesis, hc.dag.height_genesis] at hlt
      omega
    have hlower := hlow hd hne
    rw [heq]
    refine ⟨by have := h.1; omega, ?_⟩
    rcases hp.hqc_ge with rfl | hge
    · rw [← heq]
      exact h.2
    · rw [hc.dag.height_eq hd, ← hp.sameDag.height, hc'.dag.height_eq hc'.hqcDelivered] at hge
      omega

end Core

namespace Parties

theorem Reached.ordered (h : Reached P D R dummy w) {r : ReplicaID} (hr : D.Correct r) :
    (w r).core.Ordered P := by
  refine h.invariant (J := fun _ _ p => p.core.Ordered P) (fun r _ => ?_) (fun _ _ _ _ _ hp => hp)
    (fun w r p hreach hp hr hs ha _ => ?_) r hr
  · have hstart := Core.start_started P r dummy D.replicas (D.listenAddr r)
    have hexec : (init P D dummy r).core.bExec = P.genesisHash := hstart.bExec
    have hlock : (init P D dummy r).core.bLock = P.genesisHash := hstart.bLock
    rw [Core.Ordered, hexec, hlock, P.depth_genesis]
    exact ⟨Nat.le_refl _, Nat.zero_le _⟩
  · have hv := hreach.valid hr
    have hc := hv.wellFormed
    have ho := hp r hr
    have hj := hreach.justified hr
    rcases ha.marks_cases hc with ⟨hhqc, hlock, hexec⟩ | ⟨nblk, c', outs, hd, hprep, rfl⟩ |
      ⟨nblk, b, res, done, hto, _, rfl⟩ | ⟨blk, qc, hd, hlt, rfl⟩
    · rw [Core.Ordered, hhqc, hlock, hexec]
      exact ho
    · refine hprep.ordered hc (fun _ hne => ?_) ho
      exact hreach.justify_lower ((hj.delivered _ hd).resolve_left hne)
    · have hlow := hto.toDecides.below_lock hc (hv.executed hs)
      change P.depth b ≤ P.depth res.core.bLock ∧ P.depth res.core.bLock ≤ P.depth res.core.hqc.1
      rw [hto.committed.same.bLock, hto.committed.same.hqc]
      exact ⟨Nat.le_of_lt hlow, ho.2⟩
    · rw [hc.dag.height_eq hc.hqcDelivered, hc.dag.height_eq hd] at hlt
      exact ⟨ho.1, ho.2.trans (Nat.le_of_lt hlt)⟩

end Parties

variable [DecidableEq Sig]

/-- A certified block carries a certificate for a lower block, and every correct replica keeps
`b_exec`, `b_lock` and `hqc` in this order of heights. -/
theorem Sys.certificate_order {s : Sys H Sig} (h : s.Reachable P D dummy) :
    (∀ b, s.Certified D b → P.depth (P.justify b) < P.depth b) ∧
      ∀ r, D.Correct r →
        (s.node r).core.height (s.node r).core.bExec ≤ (s.node r).core.height (s.node r).core.bLock ∧
        (s.node r).core.height (s.node r).core.bLock ≤
          (s.node r).core.height (s.node r).core.hqc.1 := by
  obtain ⟨w, hsim⟩ := h.refined
  refine ⟨fun b hb => hsim.reached.justify_lower (hsim.quorum hb), fun r hr => ?_⟩
  have hc := (hsim.reached.valid hr).wellFormed
  rw [← (hsim.node r hr).core, hc.dag.height_eq hc.execDelivered, hc.dag.height_eq hc.lockDelivered,
    hc.dag.height_eq hc.hqcDelivered]
  exact hsim.reached.ordered hr

namespace Concrete

set_option maxRecDepth 100000 in
theorem order_run :
    (Transition.runBy (Sys.step (primitives chainBlocks []) fourReplicas) (fun _ _ => True)
      (Sys.init (primitives chainBlocks []) fourReplicas noCert) chainRun).map
        (fun s => ((s.node 2).core.bExec, (s.node 2).core.bLock, (s.node 2).core.hqc.1)) =
      some (2, 3, 4) := by
  decide +kernel

theorem certificate_order_chain : ∃ s : Sys Nat Signature,
    (s.node 2).core.bExec = 2 ∧ (s.node 2).core.bLock = 3 ∧ (s.node 2).core.hqc.1 = 4 ∧
      (s.node 2).core.height (s.node 2).core.bExec ≤ (s.node 2).core.height (s.node 2).core.bLock ∧
      (s.node 2).core.height (s.node 2).core.bLock ≤
        (s.node 2).core.height (s.node 2).core.hqc.1 := by
  obtain ⟨s, hreach, hseen⟩ := Transition.runBy_map_reaches order_run
  simp only [Prod.mk.injEq] at hseen
  obtain ⟨hexec, hlock, hhqc⟩ := hseen
  exact ⟨s, hexec, hlock, hhqc, (Sys.certificate_order hreach).2 2 (by decide)⟩

end Concrete
end LibHotStuff
