import LibHotStuff.Proofs.Handlers

namespace LibHotStuff

open Chain

variable {H Sig : Type} [DecidableEq H] {P : Primitives H Sig}

namespace Core

variable {c c' : Core H Sig} {nblk b : H}

/-- The block below the three-chain that `update` for a block is about to commit. -/
def commitTarget (c : Core H Sig) (nblk : H) : Option H :=
  match c.qcRef nblk with
  | none => none
  | some blk2 =>
    match c.qcRef blk2 with
    | none => none
    | some blk1 =>
      match c.qcRef blk1 with
      | none => none
      | some blk =>
        if (c.decided blk2 || c.decided blk1 || c.decided blk) = false ∧
            c.parent0 blk2 = some blk1 ∧ c.parent0 blk1 = some blk then some blk
        else none

/-- The walk from there down to the height of `b_exec`. -/
def commitWalk (c : Core H Sig) (nblk : H) : List H × Option H :=
  match c.commitTarget nblk with
  | none => ([], none)
  | some blk =>
    match c.walkDown (c.height c.bExec) (c.height blk + 1) blk with
    | .ok (queue, b) => (queue, some b)
    | .error _ => ([], none)

/-- The commit queue that `update` for a block makes, from the highest block down. -/
def commitQueue (c : Core H Sig) (nblk : H) : List H :=
  if (c.commitWalk nblk).2 = some c.bExec then (c.commitWalk nblk).1 else []

/-- `update` for the block throws "safety breached". -/
def breaches (c : Core H Sig) (nblk : H) : Bool :=
  (c.commitWalk nblk).2.any fun b => decide (b ≠ c.bExec)

theorem commitWalk_congr (hst : c'.storage = c.storage) (hexec : c'.bExec = c.bExec) (nblk : H) :
    c'.commitWalk nblk = c.commitWalk nblk := by
  simp only [commitWalk, commitTarget, qcRef, decided, parent0, height, hst, hexec,
    walkDown_congr hst]
  rfl

theorem commitQueue_congr (hst : c'.storage = c.storage) (hexec : c'.bExec = c.bExec) (nblk : H) :
    c'.commitQueue nblk = c.commitQueue nblk := by
  rw [commitQueue, commitQueue, commitWalk_congr hst hexec, hexec]

theorem Decides.commitTarget_eq (h : c.Decides P nblk b) (hc : c.WellFormed P) :
    c.commitTarget nblk = some b := by
  obtain ⟨b₁, b₂, hb₂, hp₂, hb₁, hp₁, hb⟩ := h.completes
  have hd₂ := h.justifyDelivered
  rw [hb₂] at hd₂
  have hd₁ := hc.dag.delivered_parent hd₂ hp₂
  have hund₂ := h.certified
  have hund₁ := h.locked
  rw [hb₂] at hund₂
  rw [hb₂, hb₁] at hund₁
  have hq := hc.dag.qcRef_eq h.nblkDelivered
  have hq₂ := hc.dag.qcRef_eq hd₂
  have hq₁ := hc.dag.qcRef_eq hd₁
  rw [hb₂] at hq
  rw [hb₁] at hq₂
  rw [hb] at hq₁
  have hpar₂ := hc.dag.parent0_eq hd₂
  have hpar₁ := hc.dag.parent0_eq hd₁
  simp only [commitTarget, hq, hq₂, hq₁]
  rw [if_pos ⟨by simp [hund₂, hund₁, h.undecided], by rw [hpar₂, hp₂], by rw [hpar₁, hp₁]⟩]

/-- The walk of `update` ends at the block at the height of `b_exec`. -/
theorem Decides.commitWalk_eq (h : c.Decides P nblk b) (hc : c.WellFormed P) {e : H}
    (hup : up P.parent (c.height b - c.height c.bExec) b = some e) :
    c.commitWalk nblk = (path P.parent (c.height b - c.height c.bExec) b, some e) := by
  obtain ⟨e', hwalk, hup'⟩ :=
    hc.dag.walkDown_eq (h.delivered hc) (c.height c.bExec) (Nat.lt_succ_self _)
  obtain rfl : e' = e := Option.some.inj (hup'.symm.trans hup)
  simp only [commitWalk, h.commitTarget_eq hc]
  rw [hwalk]

/-- The loop of `update` goes through this queue. -/
theorem CommitsTo.commitQueue_eq {r : Res H Sig} {done : List H} (h : c.CommitsTo P nblk b r done)
    (hc : c.WellFormed P) :
    c.commitQueue nblk = path P.parent (c.height b - c.height c.bExec) b := by
  rw [commitQueue, h.toDecides.commitWalk_eq hc h.onExec, if_pos rfl]

end Core
end LibHotStuff
