import LibHotStuff.Library.Quorum
import LibHotStuff.Proofs.Concrete
import LibHotStuff.Proofs.Refinement

namespace LibHotStuff

open Chain

variable {H Sig : Type} [DecidableEq H] {P : Primitives H Sig} {D : Deployment} {R : Rules H Sig}
  {dummy : QuorumCert H Sig}

/-- The votes of a replica: the blocks are delivered, and each one is higher than those before. -/
structure Party.Ballots (P : Primitives H Sig) (p : Party H Sig) : Prop where
  delivered : ∀ v ∈ p.votes, p.core.delivered v.1 = true
  low : ∀ v ∈ p.votes, 0 < P.depth v.1 ∧ P.depth v.1 ≤ p.core.vheight
  sorted : p.votes.Pairwise fun v v' => P.depth v'.1 < P.depth v.1

namespace Party

variable {p p' : Party H Sig} {w : Parties H Sig}

theorem Act.votes_cases (h : p.Act P D R w p') (hp : p.core.WellFormed P) :
    p'.votes = p.votes ∧ p'.core.vheight = p.core.vheight ∨
      ∃ blk s, p.core.Approves P blk ∧ R.vote p.core blk s ∧ .doBroadcastSlice s ∈ p.outs ∧
        p' = { p with
          core := { p.core with vheight := p.core.height blk }
          votes := (blk, p.core.bLock) :: p.votes } := by
  cases h with
  | move hm => exact Or.inl ⟨rfl, hm.stable.vheight⟩
  | cut hto _ _ => exact Or.inl ⟨rfl, hto.committed.same.vheight⟩
  | breach _ _ _ => exact Or.inl ⟨rfl, rfl⟩
  | @vote blk s happ hrule hmem => exact Or.inr ⟨blk, s, happ, hrule, hmem, rfl⟩
  | @store data _ _ => exact Or.inl ⟨rfl, (Core.addBlk_grows hp data).1.quiet.vheight⟩
  | deliver hd => exact Or.inl ⟨rfl, (Core.deliver_grows hp hd).1.quiet.vheight⟩
  | count _ _ hk =>
    have hvh := congrArg Core.vheight hk.rest
    exact Or.inl ⟨rfl, hvh⟩
  | raise _ _ _ _ => exact Or.inl ⟨rfl, rfl⟩

theorem Ballots.act (h : p.Ballots P) (hp : p.core.WellFormed P) (ha : p.Act P D R w p') :
    p'.Ballots P := by
  have hle := ha.le hp
  rcases ha.votes_cases hp with ⟨hv, hvh⟩ | ⟨blk, s, happ, _, _, rfl⟩
  · refine ⟨fun v hmem => ?_, fun v hmem => ?_, by rw [hv]; exact h.sorted⟩
    · rw [hv] at hmem
      exact hle.delivered _ (h.delivered v hmem)
    · rw [hv] at hmem
      rw [hvh]
      exact h.low v hmem
  · have hd := happ.delivered hp.dag
    have hheight := hp.dag.height_eq hd
    have hgt := happ.1
    refine ⟨fun v hmem => ?_, fun v hmem => ?_, List.pairwise_cons.mpr ⟨fun v hmem => ?_, h.sorted⟩⟩
    · rcases List.mem_cons.mp hmem with rfl | hmem
      · exact hd
      · exact h.delivered v hmem
    · change 0 < P.depth v.1 ∧ P.depth v.1 ≤ p.core.height blk
      rcases List.mem_cons.mp hmem with rfl | hmem
      · dsimp only
        omega
      · have := h.low v hmem
        omega
    · have := h.low v hmem
      change P.depth v.1 < P.depth blk
      omega

omit [DecidableEq H] in
/-- A replica votes for at most one block of a height. -/
theorem Ballots.unique (h : p.Ballots P) {a b : H} (ha : p.Voted a) (hb : p.Voted b)
    (hd : P.depth a = P.depth b) : a = b := by
  obtain ⟨l, hl⟩ := ha
  obtain ⟨l', hl'⟩ := hb
  have hsorted : p.votes.Pairwise fun v v' => P.depth v.1 ≠ P.depth v'.1 :=
    h.sorted.imp fun hlt => Nat.ne_of_gt hlt
  by_contra hne
  have : Std.Symm fun v v' : H × H => P.depth v.1 ≠ P.depth v'.1 := ⟨fun _ _ hx => hx.symm⟩
  exact hsorted.forall hl hl' (fun he => hne (Prod.mk.inj he).1) hd

end Party

namespace Parties

variable {w : Parties H Sig} {r : ReplicaID}

theorem Reached.ballots (h : Reached P D R dummy w) (hr : D.Correct r) : (w r).Ballots P := by
  refine h.invariant (J := fun _ _ p => p.Ballots P) (fun r _ => ?_) (fun _ _ _ _ _ hp => hp)
    (fun w r p hreach hp hr hs ha _ => ?_) r hr
  · exact ⟨by simp [init], by simp [init], List.Pairwise.nil⟩
  · exact (hp r hr).act (hreach.valid hr).wellFormed ha

omit [DecidableEq H] in
theorem three_faulty_lt (D : Deployment) : 3 * ((D.n - 1) / 3) < D.n := by
  have := D.nonempty
  rw [Deployment.n]
  omega

omit [DecidableEq H] in
/-- Two quorums share a correct replica. -/
theorem quorum_inter {A B : Finset ReplicaID} (hA : A ⊆ Finset.range D.n)
    (hB : B ⊆ Finset.range D.n) (cA : D.n - (D.n - 1) / 3 ≤ A.card)
    (cB : D.n - (D.n - 1) / 3 ≤ B.card) : ∃ r ∈ A, r ∈ B ∧ D.Correct r := by
  obtain ⟨r, hr, hcorrect⟩ :=
    LibHotStuff.Quorum.exists_mem_inter (three_faulty_lt D) D.byzantineCard hA hB cA cB
  obtain ⟨hrA, hrB⟩ := Finset.mem_inter.mp hr
  exact ⟨r, hrA, hrB, Finset.mem_range.mp (hA hrA), hcorrect⟩

/-- At most one block of a height has a quorum. -/
theorem Reached.quorum_unique (h : Reached P D R dummy w) {a b : H} (ha : w.Quorum D a)
    (hb : w.Quorum D b) (hd : P.depth a = P.depth b) : a = b := by
  obtain ⟨A, hA, cA, hva⟩ := ha
  obtain ⟨B, hB, cB, hvb⟩ := hb
  obtain ⟨r, hrA, hrB, hr⟩ := quorum_inter hA hB cA cB
  exact (h.ballots hr).unique (hva r hrA hr) (hvb r hrB hr) hd

end Parties

variable [DecidableEq Sig]

/-- At most one block of a height is certified. -/
theorem Sys.certified_height_unique {s : Sys H Sig} (h : s.Reachable P D dummy) {a b : H}
    (ha : s.Certified D a) (hb : s.Certified D b) (hd : P.depth a = P.depth b) : a = b := by
  obtain ⟨w, hsim⟩ := h.refined
  exact hsim.reached.quorum_unique (hsim.quorum ha) (hsim.quorum hb) hd

namespace Concrete

set_option maxRecDepth 100000 in
theorem votes_run :
    (Transition.runBy (Sys.step (primitives chainBlocks []) fourReplicas) (fun _ _ => True)
      (Sys.init (primitives chainBlocks []) fourReplicas noCert) chainRun).map
        (fun s => ((s.node 0).core.config.nmajority, s.signed 0 4, s.signed 1 4)) =
      some (3, true, true) := by
  decide +kernel

theorem certified_height_unique_chain : ∃ (s : Sys Nat Signature) (a b : Nat),
    s.Reachable (primitives chainBlocks []) fourReplicas noCert ∧
      s.Certified fourReplicas a ∧ s.Certified fourReplicas b ∧ a = b := by
  obtain ⟨s, hreach, hseen⟩ := Transition.runBy_map_reaches votes_run
  simp only [Prod.mk.injEq] at hseen
  obtain ⟨hmaj, h₀, h₁⟩ := hseen
  have hcert : s.Certified fourReplicas 4 := by
    refine ⟨0, {0, 1, 3}, by decide, by decide, by rw [hmaj]; decide, fun r hr hc => ?_⟩
    simp only [Finset.mem_insert, Finset.mem_singleton] at hr
    rcases hr with rfl | rfl | rfl
    · exact h₀
    · exact h₁
    · exact absurd hc (by decide)
  exact ⟨s, 4, 4, hreach, hcert, hcert, Sys.certified_height_unique hreach hcert hcert rfl⟩

end Concrete
end LibHotStuff
