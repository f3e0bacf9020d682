import LibHotStuff.Proofs.BlockFrame
import LibHotStuff.Proofs.CommitQueue
import LibHotStuff.Proofs.PrunedStore

/-! `update` and the vote for a block of a core of which blocks have been pruned. -/

namespace LibHotStuff

open Chain

variable {H Sig : Type} [DecidableEq H] {P : Primitives H Sig}

namespace Core

variable {c p u p' u' : Core H Sig} {h nblk : H} {b b' : Block H Sig}

/-- Reading the certificate of a block goes well: it has been cleared, and the block that it is for
is decided in the other core; or that block is delivered and decided in both cores or in none. -/
def certRead (p u : Core H Sig) (x : H) (next : H → Bool) : Bool :=
  match u.qcRef x with
  | none => true
  | some y =>
    if p.qcRef x = none then u.decided y
    else
      p.delivered y == u.delivered y && p.decided y == u.decided y && (u.decided y || next y)

/-- A walk down meets no cleared block. -/
def walkRead (p u : Core H Sig) (height : Nat) (x : H) : Bool :=
  match u.walkDown height (u.height x + 1) x with
  | .ok (queue, _) => queue.all fun y => (p.qcRef y).isSome
  | .error _ => false

/-- The end of `update` goes well. -/
def commitRead (p u : Core H Sig) (blk2 blk1 blk : H) : Bool :=
  !(u.parent0 blk2 == some blk1 && u.parent0 blk1 == some blk) ||
    walkRead p u (u.height u.bExec) blk

/-- `update` for a block goes well. -/
def updateRead (p u : Core H Sig) (nblk : H) : Bool :=
  certRead p u nblk fun blk2 => certRead p u blk2 fun blk1 => certRead p u blk1 fun blk =>
    commitRead p u blk2 blk1 blk

namespace Tracks

omit [DecidableEq H] in
theorem certRead_cases (t : p.Tracks u) {x : H} {next : H → Bool}
    (h : certRead p u x next = true) :
    p.qcRef x = none ∧ (u.qcRef x = none ∨ ∃ y, u.qcRef x = some y ∧ u.decided y = true) ∨
      ∃ y, p.qcRef x = some y ∧ u.qcRef x = some y ∧ p.parent0 x = u.parent0 x ∧
        p.delivered y = u.delivered y ∧ p.decided y = u.decided y ∧
          (u.decided y = true ∨ next y = true) := by
  rw [certRead] at h
  cases hq : p.qcRef x with
  | none =>
    cases hu : u.qcRef x with
    | none => exact Or.inl ⟨rfl, Or.inl rfl⟩
    | some y =>
      simp only [hu, hq, if_true] at h
      exact Or.inl ⟨rfl, Or.inr ⟨y, rfl, h⟩⟩
  | some y =>
    obtain ⟨hu, hpar⟩ := t.edges hq
    simp only [hu, hq, reduceCtorEq, if_false, Bool.and_eq_true, beq_iff_eq, Bool.or_eq_true] at h
    obtain ⟨⟨hk, hdec⟩, hnext⟩ := h
    exact Or.inr ⟨y, rfl, hu, hpar, hk, hdec, hnext⟩

omit [DecidableEq H] in
/-- A block above another is delivered in both cores when it is in one. -/
theorem delivered_of_height (hdag : u.Dag P) {x : H} {n : Nat}
    (hk : p.delivered x = u.delivered x) (hlt : n < u.height x) : p.delivered x = true := by
  rw [hk]
  exact hdag.delivered_of_height (by omega)

omit [DecidableEq H] in
theorem updateHqc (t : p.Tracks u) (hdag : u.Dag P) {x : H}
    (hk : p.delivered x = u.delivered x) (qc : QuorumCert H Sig) :
    Alike (p.updateHqc x qc) (u.updateHqc x qc) := by
  have hx := t.height_of_known hk
  have hhqc := t.height t.hqc
  unfold Core.updateHqc
  rw [hx, hhqc, t.hqc_eq]
  by_cases hlt : u.height u.hqc.1 < u.height x
  · rw [if_pos hlt, if_pos hlt]
    have hd := delivered_of_height hdag hk hlt
    have hrest := congrArg (fun c : Core H Sig => { c with hqc := (x, qc) }) t.rest
    exact ⟨t.of_storage rfl rfl hrest rfl (Or.inr hd) (Or.inl rfl) (Or.inl rfl), rfl, rfl, rfl⟩
  · rw [if_neg hlt, if_neg hlt]
    exact t.ok

theorem startDecode (t : p.Tracks u) (x : H) :
    Alike (p.startDecode P x) (u.startDecode P x) := by
  unfold Core.startDecode
  rw [t.sc_eq, t.futures_eq, t.rse_eq]
  split
  · rename_i input _
    split
    · rename_i fu _ _
      have hrest := congrArg (fun c : Core H Sig => { c with
        rse := u.rse, sc := u.sc
        futures := Function.update u.futures x (some (asyncDecode P.leopard u.rse input)) }) t.rest
      exact ⟨t.of_storage rfl rfl hrest rfl (Or.inl rfl) (Or.inl rfl) (Or.inl rfl), rfl, rfl, rfl⟩
    · exact t.ok
    · exact t.ok
    · exact t.fail _
  · exact t.ok

omit [DecidableEq H] in
theorem lock (t : p.Tracks u) (hdag : u.Dag P) {x : H} (hk : p.delivered x = u.delivered x) :
    (p.lock x).Tracks (u.lock x) := by
  have hx := t.height_of_known hk
  have hlock := t.height t.bLock
  unfold Core.lock
  rw [hx, hlock, t.bLock_eq]
  split
  · rename_i hlt
    have hrest := congrArg (fun c : Core H Sig => { c with bLock := x }) t.rest
    have hd := delivered_of_height hdag hk hlt
    exact t.of_storage rfl rfl hrest rfl (Or.inl rfl) (Or.inr hd) (Or.inl rfl)
  · exact t

theorem commitBlk (t : p.Tracks u) {x : H} (hd : p.delivered x = true) :
    Alike (p.commitBlk x) (u.commitBlk x) := by
  have hdec := t.decide x
  have hheight : (p.modify x fun b => { b with decision := true }).height x =
      (u.modify x fun b => { b with decision := true }).height x :=
    hdec.height (by
      have hsame : p.SameDag (p.modify x fun b => { b with decision := true }) :=
        .modify fun _ => rfl
      rw [hsame.delivered, hd])
  unfold Core.commitBlk
  generalize (p.modify x fun b => { b with decision := true }) = p₁ at hdec hheight
  generalize (u.modify x fun b => { b with decision := true }) = u₁ at hdec hheight
  dsimp only
  have hdecs (cmds : List UInt256) : p₁.decisions x cmds = u₁.decisions x cmds := by
    rw [decisions, decisions, hdec.id_eq, hheight]
  rw [hdec.futures_eq, hdec.sc_eq]
  split
  · exact ⟨hdec, rfl, rfl, rfl⟩
  · exact ⟨hdec, rfl, rfl, rfl⟩
  · rw [hdecs]
    have hrest := congrArg (fun c : Core H Sig => { c with
      futures := Function.update u₁.futures x none, sc := u₁.sc.remove x }) hdec.rest
    exact ⟨hdec.of_storage rfl rfl hrest rfl (Or.inl rfl) (Or.inl rfl) (Or.inl rfl), rfl, rfl, rfl⟩

theorem commitAll (t : p.Tracks u) {queue : List H} (hd : ∀ x ∈ queue, p.delivered x = true) :
    Alike (p.commitAll queue) (u.commitAll queue) := by
  induction queue generalizing p u with
  | nil => exact t.ok
  | cons x xs ih =>
    have hx := t.commitBlk (hd x (List.mem_cons_self ..))
    refine hx.bind fun _ => ih hx.tracks fun y hy => ?_
    rw [(commitBlk_sameBlocks p x).sameDag.delivered]
    exact hd y (List.mem_cons_of_mem _ hy)

omit [DecidableEq H] in
/-- A walk that meets no cleared block runs through the same delivered blocks in both cores. -/
theorem walkDown (t : p.Tracks u) {k fuel : Nat} {x : H} (hd : p.delivered x = true)
    {queue : List H} {e : H} (hwalk : u.walkDown k fuel x = .ok (queue, e))
    (hread : ∀ y ∈ queue, (p.qcRef y).isSome) :
    p.walkDown k fuel x = .ok (queue, e) ∧ ∀ y ∈ queue, p.delivered y = true := by
  induction fuel generalizing x queue with
  | zero => cases hwalk
  | succ fuel ih =>
    rw [Core.walkDown] at hwalk ⊢
    rw [t.height hd]
    by_cases hlt : k < u.height x
    · rw [if_pos hlt] at hwalk ⊢
      cases hpar : u.parent0 x with
      | none => simp [hpar] at hwalk
      | some y =>
        simp only [hpar] at hwalk
        cases hrec : u.walkDown k fuel y with
        | error f => simp [hrec, Except.map] at hwalk
        | ok qe =>
          obtain ⟨queue', e'⟩ := qe
          simp only [hrec, Except.map, Except.ok.injEq, Prod.mk.injEq] at hwalk
          obtain ⟨rfl, rfl⟩ := hwalk
          obtain ⟨q, hq⟩ := Option.isSome_iff_exists.mp (hread x (List.mem_cons_self ..))
          have hparp : p.parent0 x = some y := (t.edges hq).2.trans hpar
          obtain ⟨hrecp, hall⟩ := ih (t.delivered_parent0 hparp) hrec fun z hz =>
            hread z (List.mem_cons_of_mem _ hz)
          refine ⟨by simp [hparp, hrecp, Except.map], fun z hz => ?_⟩
          obtain rfl | hz := List.mem_cons.mp hz
          · exact hd
          · exact hall z hz
    · rw [if_neg hlt] at hwalk ⊢
      refine ⟨hwalk, fun y hy => ?_⟩
      simp only [Except.ok.injEq, Prod.mk.injEq] at hwalk
      rw [← hwalk.1] at hy
      cases hy

omit [DecidableEq H] in
theorem walkRead (t : p.Tracks u) {k : Nat} {x : H} (hd : p.delivered x = true)
    (h : walkRead p u k x = true) :
    ∃ queue e, u.walkDown k (u.height x + 1) x = .ok (queue, e) ∧
      p.walkDown k (p.height x + 1) x = .ok (queue, e) ∧ ∀ y ∈ queue, p.delivered y = true := by
  unfold Core.walkRead at h
  split at h
  · rename_i queue e hwalk
    have hread : ∀ y ∈ queue, (p.qcRef y).isSome := List.all_eq_true.mp h
    obtain ⟨hwalkp, hall⟩ := t.walkDown hd hwalk hread
    rw [t.height hd]
    exact ⟨queue, e, hwalk, hwalkp, hall⟩
  · cases h

theorem commit (t : p.Tracks u) {x : H} (hd : p.delivered x = true)
    (h : Core.walkRead p u (u.height u.bExec) x = true) : Alike (p.commit x) (u.commit x) := by
  obtain ⟨queue, e, hwalk, hwalkp, hall⟩ := t.walkRead hd h
  have hexec : p.height p.bExec = u.height u.bExec := by rw [t.height t.bExec, t.bExec_eq]
  unfold Core.commit
  rw [hexec, hwalkp, hwalk, t.bExec_eq]
  dsimp only
  by_cases he : e ≠ u.bExec
  · rw [if_pos he, if_pos he]
    exact t.fail _
  · rw [if_neg he, if_neg he]
    have hrev : ∀ y ∈ queue.reverse, p.delivered y = true :=
      fun y hy => hall y (List.mem_reverse.mp hy)
    have hcom := t.commitAll hrev
    refine hcom.bind fun _ => ?_
    have hrest := congrArg (fun c : Core H Sig => { c with bExec := x }) hcom.tracks.rest
    have hx : (p.commitAll queue.reverse).core.delivered x = true := by
      rw [(commitAll_sameBlocks p queue.reverse).sameDag.delivered, hd]
    refine Tracks.ok ?_
    exact hcom.tracks.of_storage rfl rfl hrest rfl (Or.inl rfl) (Or.inl rfl) (Or.inr hx)

end Tracks

theorem commitRead_congr (hp : p'.storage = p.storage) (hu : u'.storage = u.storage)
    (hexec : u'.bExec = u.bExec) : commitRead p' u' = commitRead p u := by
  funext blk2 blk1 blk
  simp only [commitRead, walkRead, parent0, height, qcRef, hp, hu, hexec, walkDown_congr hu]

theorem updateRead_congr (hp : p'.storage = p.storage) (hu : u'.storage = u.storage)
    (hexec : u'.bExec = u.bExec) : updateRead p' u' = updateRead p u := by
  funext nblk
  simp only [updateRead, certRead, qcRef, Core.delivered, decided, hp, hu,
    commitRead_congr hp hu hexec]
  rfl

omit [DecidableEq H] in
theorem updateHqc_frame (c : Core H Sig) (x : H) (qc : QuorumCert H Sig) :
    ∃ hqc, (c.updateHqc x qc).core = { c with hqc := hqc } := by
  unfold updateHqc
  split
  · exact ⟨_, rfl⟩
  · exact ⟨c.hqc, rfl⟩

omit [DecidableEq H] in
theorem lock_frame (c : Core H Sig) (x : H) :
    (c.lock x).storage = c.storage ∧ (c.lock x).bExec = c.bExec := by
  unfold lock
  split <;> exact ⟨rfl, rfl⟩

namespace Tracks

theorem updateLock (t : p.Tracks u) (hdag : u.Dag P) {blk2 : H}
    (h : certRead p u blk2 (fun blk1 => certRead p u blk1 fun blk => commitRead p u blk2 blk1 blk) =
      true) :
    Alike (p.updateLock P blk2) (u.updateLock P blk2) := by
  unfold Core.updateLock
  obtain ⟨hq, hq' | ⟨blk1, hq', hdec⟩⟩ | ⟨blk1, hq, hq', hpar₂, hk₁, hdec₁, hnext⟩ :=
    t.certRead_cases h
  · rw [hq, hq']
    exact t.ok
  · simp only [hq, hq', hdec, if_true]
    exact t.ok
  simp only [hq, hq', hdec₁]
  cases hd₁ : u.decided blk1 with
  | true =>
    simp only [if_true]
    exact t.ok
  | false =>
    rw [hd₁] at hnext
    have h₁ := hnext.resolve_left Bool.false_ne_true
    have hstart := t.startDecode (P := P) blk1
    simp only [Bool.false_eq_true, if_false]
    refine hstart.bind fun _ => ?_
    have t₁ := hstart.tracks
    obtain ⟨pf, hp⟩ := startDecode_frame (P := P) p blk1
    obtain ⟨uf, hu⟩ := startDecode_frame (P := P) u blk1
    rw [hp, hu] at t₁ ⊢
    have hsame : u.SameDag { u with futures := uf } := .of_storage rfl rfl
    have t₁ := t₁.lock (hsame.dag hdag) hk₁
    obtain ⟨hpst, hpexec⟩ := lock_frame { p with futures := pf } blk1
    obtain ⟨hust, huexec⟩ := lock_frame { u with futures := uf } blk1
    dsimp only at hpst hpexec hust huexec ⊢
    generalize ({ p with futures := pf } : Core H Sig).lock blk1 = p₁ at t₁ hpst hpexec
    generalize ({ u with futures := uf } : Core H Sig).lock blk1 = u₁ at t₁ hust huexec
    have hread : certRead p₁ u₁ blk1 (fun blk => commitRead p₁ u₁ blk2 blk1 blk) = true := by
      rw [commitRead_congr hpst hust huexec]
      simp only [certRead, qcRef, Core.delivered, decided, hpst, hust] at h₁ ⊢
      exact h₁
    have hpar₂₁ : p₁.parent0 blk2 = u₁.parent0 blk2 := by
      rw [parent0, parent0, hpst, hust]
      exact hpar₂
    obtain ⟨hq, hq' | ⟨blk, hq', hdec⟩⟩ | ⟨blk, hq, hq', hpar₁, hk, hdec, hnext⟩ :=
      t₁.certRead_cases hread
    · simp only [hq, hq']
      exact t₁.ok
    · simp only [hq, hq', hdec, if_true]
      exact t₁.ok
    simp only [hq, hq', hdec, hpar₂₁, hpar₁]
    cases hd : u₁.decided blk with
    | true =>
      simp only [if_true]
      exact t₁.ok
    | false =>
      rw [hd] at hnext
      have hcommit := hnext.resolve_left Bool.false_ne_true
      simp only [Bool.false_eq_true, if_false]
      cases hp₂ : u₁.parent0 blk2 with
      | none => exact t₁.fail _
      | some p₂ =>
        dsimp only
        by_cases h₂ : p₂ ≠ blk1
        · rw [if_pos h₂, if_pos h₂]
          exact t₁.ok
        rw [if_neg h₂, if_neg h₂]
        cases hp₁ : u₁.parent0 blk1 with
        | none => exact t₁.fail _
        | some p₁' =>
          dsimp only
          by_cases h₁ : p₁' ≠ blk
          · rw [if_pos h₁, if_pos h₁]
            exact t₁.ok
          rw [if_neg h₁, if_neg h₁]
          rw [not_not] at h₁ h₂
          subst h₁ h₂
          -- the first parent of a block that is there is delivered
          have hdel := t₁.delivered_parent0 (hpar₁.trans hp₁)
          simp only [commitRead, hp₂, hp₁, beq_self_eq_true, Bool.and_self, Bool.not_true,
            Bool.false_or] at hcommit
          exact t₁.commit hdel hcommit

theorem update (t : p.Tracks u) (hdag : u.Dag P) {nblk : H} (hd : p.delivered nblk = true)
    (h : updateRead p u nblk = true) : Alike (p.update P nblk) (u.update P nblk) := by
  obtain ⟨b', hb', _⟩ := stored_of_delivered hd
  obtain ⟨b, hb, _⟩ := stored_of_delivered (t.delivered hd)
  have hqc : b'.qc = b.qc := congrArg BlockData.qc (t.qc_eq hb' hb)
  have hq₀ : p.qcRef nblk = b'.qcRef := qcRef_of hb'
  have hq₁ : u.qcRef nblk = b.qcRef := qcRef_of hb
  unfold Core.update
  simp only [hb', hb]
  rw [updateRead] at h
  obtain ⟨hq, hq' | ⟨blk2, hq', hdec⟩⟩ | ⟨blk2, hq, hq', _, hk, hdec, hnext⟩ := t.certRead_cases h
  · rw [← hq₀, ← hq₁, hq, hq']
    exact t.ok
  · rw [← hq₀, ← hq₁, hq, hq']
    simp only [hdec, if_true]
    exact t.ok
  rw [← hq₀, ← hq₁, hq, hq']
  simp only [hdec, hqc]
  cases hd₂ : u.decided blk2 with
  | true =>
    simp only [if_true]
    exact t.ok
  | false =>
    rw [hd₂] at hnext
    have h₂ := hnext.resolve_left Bool.false_ne_true
    simp only [Bool.false_eq_true, if_false]
    have hhqc := t.updateHqc hdag hk b.qc
    obtain ⟨x, hx⟩ := updateHqc_frame p blk2 b.qc
    obtain ⟨y, hy⟩ := updateHqc_frame u blk2 b.qc
    refine hhqc.bind fun _ => ?_
    have t₁ := hhqc.tracks
    rw [hx, hy] at t₁ ⊢
    have hsame : u.SameDag { u with hqc := y } := .of_storage rfl rfl
    refine t₁.updateLock (hsame.dag hdag) ?_
    have hread : commitRead ({ p with hqc := x } : Core H Sig) { u with hqc := y } =
        commitRead p u := commitRead_congr rfl rfl rfl
    rw [hread]
    exact h₂

end Tracks

/-- The voting rule for a block goes well. -/
def voteRead (p u : Core H Sig) (lock nblk : H) : Bool :=
  decide (u.height nblk ≤ u.vheight) ||
    (p.qcRef nblk).any fun q =>
      p.delivered q == u.delivered q &&
        (decide (u.height lock < u.height q) || walkRead p u (u.height lock) nblk)

/-- `b_lock` after `update` for a block. -/
def lockAfter (c : Core H Sig) (nblk : H) : H :=
  match c.qcRef nblk with
  | none => c.bLock
  | some blk2 =>
    if c.decided blk2 then c.bLock
    else
      match c.qcRef blk2 with
      | none => c.bLock
      | some blk1 => if c.decided blk1 then c.bLock else (c.lock blk1).bLock

omit [DecidableEq H] in
theorem SameDag.walkDown {c c' : Core H Sig} (hs : c.SameDag c') (k fuel : Nat) (x : H) :
    c'.walkDown k fuel x = c.walkDown k fuel x := by
  induction fuel generalizing x with
  | zero => rfl
  | succ fuel ih =>
    have hpar (x : H) : c'.parent0 x = c.parent0 x := by
      have h := congrArg (Option.bind · fun q => q) (hs.project (h := x) (·.parents.head?) fun _ => rfl)
      rwa [Option.bind_map, Option.bind_map] at h
    simp only [Core.walkDown, hs.height, hpar, ih]

omit [DecidableEq H] in
theorem SameDag.qcRef {c c' : Core H Sig} (hs : c.SameDag c') (x : H) : c'.qcRef x = c.qcRef x := by
  have h := congrArg (Option.bind · fun q => q) (hs.project (h := x) Block.qcRef fun _ => rfl)
  rwa [Option.bind_map, Option.bind_map] at h

omit [DecidableEq H] in
theorem voteRead_congr (hp : p.SameDag p') (hu : u.SameDag u') (hv : u'.vheight = u.vheight) :
    voteRead p' u' = voteRead p u := by
  funext lock nblk
  simp only [voteRead, walkRead, hp.delivered, hu.delivered, hu.height, hp.qcRef, hu.walkDown, hv]

namespace Tracks

theorem opinion (t : p.Tracks u) {nblk : H} (hd : p.delivered nblk = true)
    (h : voteRead p u u.bLock nblk = true) : p.opinion nblk = u.opinion nblk := by
  rw [voteRead, Bool.or_eq_true, decide_eq_true_eq, Option.any_eq_true] at h
  unfold Core.opinion
  rw [t.height hd, t.vheight_eq, t.height t.bLock, t.bLock_eq]
  by_cases hv : u.height nblk ≤ u.vheight
  · rw [if_pos hv, if_pos hv]
  rw [if_neg hv, if_neg hv]
  obtain ⟨q, hq, hread⟩ := h.resolve_left hv
  rw [Bool.and_eq_true, beq_iff_eq, Bool.or_eq_true, decide_eq_true_eq] at hread
  obtain ⟨hk, hread⟩ := hread
  rw [hq, (t.edges hq).1, Option.any_some, Option.any_some, t.height_of_known hk]
  by_cases hlt : u.height u.bLock < u.height q
  · rw [if_pos (decide_eq_true hlt), if_pos (decide_eq_true hlt)]
  · obtain ⟨queue, e, hwalk, hwalkp, _⟩ := t.walkRead hd (hread.resolve_left hlt)
    rw [t.height hd] at hwalkp
    rw [hwalk, hwalkp]

theorem castVote (t : p.Tracks u) {prop : Proposal H} (hd : p.delivered prop.blk = true)
    (h : voteRead p u u.bLock prop.blk = true) : Alike (p.castVote P prop) (u.castVote P prop) := by
  have hfinish (c : Core H Sig) :
      (if prop.proposer = c.id then []
        else (c.qcRef prop.blk).toList.map Task.onQcFinish).filterMap
          (Task.vote? : Task H Sig → Option (Output H Sig)) = [] := by
    split
    · rfl
    · cases c.qcRef prop.blk <;> rfl
  unfold Core.castVote
  rw [t.opinion hd h]
  split
  · exact t.fail _
  · rename_i o _
    have hvote (c : Core H Sig) (v : Nat) : (if o then { c with vheight := v } else c).voteFor P prop.blk =
        c.voteFor P prop.blk := by
      split <;> rfl
    have hdis (c : Core H Sig) (v : Nat) :
        (if o then { c with vheight := v } else c).voteDisabled = c.voteDisabled := by
      split <;> rfl
    refine ⟨?_, rfl, ?_, rfl⟩
    · dsimp only
      cases o with
      | false => exact t
      | true =>
        rw [t.height hd]
        have hrest := congrArg (fun c : Core H Sig => { c with vheight := u.height prop.blk }) t.rest
        exact t.of_storage rfl rfl hrest rfl (Or.inl rfl) (Or.inl rfl) (Or.inl rfl)
    · dsimp only
      rw [List.filterMap_append, List.filterMap_append, hfinish, hfinish, hvote, hvote, hdis, hdis,
        voteFor, voteFor, t.id_eq, t.voteDisabled_eq]

theorem onReceiveSlice (t : p.Tracks u) (s : Slice H) :
    Alike (p.onReceiveSlice P s) (u.onReceiveSlice P s) := by
  unfold Core.onReceiveSlice
  rw [t.sc_eq]
  split
  · split
    · exact t.fail _
    · rename_i sc _
      have hrest := congrArg (fun c : Core H Sig => { c with sc := sc }) t.rest
      refine Tracks.ok ?_
      exact t.of_storage rfl rfl hrest rfl (Or.inl rfl) (Or.inl rfl) (Or.inl rfl)
  · exact t.ok

end Tracks

end Core
end LibHotStuff
