import LibHotStuff.Proofs.Handlers

namespace LibHotStuff

variable {H Sig : Type} {P : Primitives H Sig}

/-- A block without the mark that it has been committed. -/
def Block.undecided (b : Block H Sig) : Block H Sig := { b with decision := false }

/-- What the calls leave alone that neither store nor deliver a block nor count a vote: the blocks,
but for their decisions. `hqc.second` stays or is the certificate in a delivered block. -/
structure Core.SameBlocks (c c' : Core H Sig) : Prop where
  id : c'.id = c.id
  b0 : c'.b0 = c.b0
  config : c'.config = c.config
  blocks : ∀ h, (c'.storage h).map Block.undecided = (c.storage h).map Block.undecided
  hqc : c'.hqc.2 = c.hqc.2 ∨
    ∃ h b, c.storage h = some b ∧ b.delivered = true ∧ c'.hqc.2 = b.qc

namespace Core

variable {c c' c'' : Core H Sig}

namespace SameBlocks

theorem refl (c : Core H Sig) : c.SameBlocks c := ⟨rfl, rfl, rfl, fun _ => rfl, Or.inl rfl⟩

/-- A stored block has been stored before, with the same fields but for the decision. -/
theorem stored (h : c.SameBlocks c') {x : H} {b' : Block H Sig} (hb : c'.storage x = some b') :
    ∃ b d, c.storage x = some b ∧ b' = { b with decision := d } := by
  have heq := h.blocks x
  rw [hb] at heq
  obtain ⟨b, hb₀, he⟩ := Option.map_eq_some_iff.mp heq.symm
  refine ⟨b, b'.decision, hb₀, ?_⟩
  cases b
  cases b'
  simp only [Block.undecided, Block.mk.injEq] at he ⊢
  simp [he]

theorem trans (h : c.SameBlocks c') (h' : c'.SameBlocks c'') : c.SameBlocks c'' where
  id := h'.id.trans h.id
  b0 := h'.b0.trans h.b0
  config := h'.config.trans h.config
  blocks := fun x => (h'.blocks x).trans (h.blocks x)
  hqc := by
    obtain heq | ⟨x, b', hb', hd', hqc⟩ := h'.hqc
    · rw [heq]
      exact h.hqc
    · obtain ⟨b, d, hb, rfl⟩ := h.stored hb'
      exact Or.inr ⟨x, b, hb, hd', hqc⟩

theorem of_eq (hid : c'.id = c.id) (hb0 : c'.b0 = c.b0) (hconfig : c'.config = c.config)
    (hstorage : c'.storage = c.storage) (hhqc : c'.hqc = c.hqc) : c.SameBlocks c' :=
  ⟨hid, hb0, hconfig, fun _ => by rw [hstorage], Or.inl (by rw [hhqc])⟩

theorem sameDag (h : c.SameBlocks c') : c.SameDag c' := by
  refine ⟨h.b0, fun x => ?_⟩
  have hcomp : (Block.dag : Block H Sig → Block H Sig) = Block.dag ∘ Block.undecided := rfl
  rw [hcomp, ← Option.map_map, ← Option.map_map, h.blocks x]

theorem bind {r : Res H Sig} {f : Core H Sig → Res H Sig} (h : c.SameBlocks r.core)
    (hf : ∀ c : Core H Sig, c.SameBlocks (f c).core) : c.SameBlocks (r.bind f).core :=
  Res.bind_core (R := SameBlocks) (fun _ _ _ => trans) h hf

end SameBlocks

variable [DecidableEq H]

theorem modify_sameBlocks (c : Core H Sig) (x : H) {f : Block H Sig → Block H Sig}
    (hf : ∀ b, (f b).undecided = b.undecided) : c.SameBlocks (c.modify x f) := by
  refine ⟨rfl, rfl, rfl, fun y => ?_, Or.inl rfl⟩
  by_cases hy : y = x
  · subst hy
    simp [modify, Function.comp_def, hf]
  · simp [modify, Function.update_of_ne hy]

theorem startDecode_sameBlocks (c : Core H Sig) (x : H) :
    c.SameBlocks (c.startDecode P x).core := by
  obtain ⟨futures, heq⟩ := startDecode_frame (P := P) c x
  rw [heq]
  exact .of_eq rfl rfl rfl rfl rfl

omit [DecidableEq H] in
theorem lock_sameBlocks (c : Core H Sig) (x : H) : c.SameBlocks (c.lock x) := by
  unfold lock
  split
  · exact .of_eq rfl rfl rfl rfl rfl
  · exact .refl c

theorem commitBlk_sameBlocks (c : Core H Sig) (x : H) : c.SameBlocks (c.commitBlk x).core := by
  have hdec : c.SameBlocks (c.modify x fun b => { b with decision := true }) :=
    modify_sameBlocks c x fun _ => rfl
  unfold commitBlk
  dsimp only
  split
  · exact hdec
  · exact hdec
  · exact hdec.trans (.of_eq rfl rfl rfl rfl rfl)

theorem commitAll_sameBlocks (c : Core H Sig) (xs : List H) :
    c.SameBlocks (c.commitAll xs).core := by
  induction xs generalizing c with
  | nil => exact .refl c
  | cons x xs ih =>
    exact (commitBlk_sameBlocks c x).bind ih

theorem commit_sameBlocks (c : Core H Sig) (x : H) : c.SameBlocks (c.commit x).core := by
  unfold commit
  split
  · exact .refl c
  · rename_i queue b _
    split
    · exact .refl c
    · apply (commitAll_sameBlocks c queue.reverse).bind
      exact fun c => .of_eq rfl rfl rfl rfl rfl

theorem updateLock_sameBlocks (c : Core H Sig) (x : H) :
    c.SameBlocks (c.updateLock P x).core := by
  unfold updateLock
  split
  · exact .refl c
  rename_i b₁ _
  split
  · exact .refl c
  apply (startDecode_sameBlocks c b₁).bind
  intro c
  have hlock := lock_sameBlocks c b₁
  dsimp only
  generalize c.lock b₁ = c₁ at *
  split
  · exact hlock
  split
  · exact hlock
  split
  · exact hlock
  split
  · exact hlock
  split
  · exact hlock
  split
  · exact hlock
  · exact hlock.trans (commit_sameBlocks _ _)

/-- `update` for a delivered block. -/
theorem update_sameBlocks {nblk : H} (hd : c.delivered nblk = true) :
    c.SameBlocks (c.update P nblk).core := by
  obtain ⟨n, hn, hnd⟩ := stored_of_delivered hd
  unfold update
  simp only [hn]
  split
  · exact .refl c
  rename_i b₂ _
  split
  · exact .refl c
  apply SameBlocks.bind
  · unfold updateHqc
    split
    · exact ⟨rfl, rfl, rfl, fun _ => rfl, Or.inr ⟨nblk, n, hn, hnd, rfl⟩⟩
    · exact .refl c
  · exact fun c => updateLock_sameBlocks c b₂

theorem onReceiveSlice_sameBlocks (c : Core H Sig) (s : Slice H) :
    c.SameBlocks (c.onReceiveSlice P s).core := by
  unfold onReceiveSlice
  split
  · split
    · exact .refl c
    · exact .of_eq rfl rfl rfl rfl rfl
  · exact .refl c

theorem castVote_sameBlocks (c : Core H Sig) (prop : Proposal H) :
    c.SameBlocks (c.castVote P prop).core := by
  unfold castVote
  split
  · exact .refl c
  · dsimp only
    split
    · exact .of_eq rfl rfl rfl rfl rfl
    · exact .refl c

theorem onReceiveProposal_sameBlocks (c : Core H Sig) (prop : Proposal H) :
    c.SameBlocks (c.onReceiveProposal P prop).core := by
  unfold onReceiveProposal
  split
  · apply (onReceiveSlice_sameBlocks c prop.slice).bind
    intro c
    apply SameBlocks.bind (.refl c)
    intro c
    apply SameBlocks.bind
    · split
      · exact .refl c
      · split
        · rename_i hd
          exact update_sameBlocks hd
        · exact .refl c
    · exact fun c => castVote_sameBlocks c prop
  · exact .refl c

theorem sendProposal_sameBlocks (c : Core H Sig) (cmds : List UInt256) (bnew : H) :
    c.SameBlocks (c.sendProposal P cmds bnew).core := by
  unfold sendProposal
  split
  · exact .refl c
  split
  · exact .refl c
  split
  · exact .refl c
  dsimp only
  split
  · exact .refl c
  split
  · exact .refl c
  · apply (onReceiveProposal_sameBlocks c _).bind
    exact fun c => .refl c

end Core
end LibHotStuff
