import LibHotStuff.Proofs.Calls
import LibHotStuff.Proofs.Shards

namespace LibHotStuff

open Chain

variable {H Sig : Type} {P : Primitives H Sig}

/-- What is known of the calls: the slices that are taken in, the core and the slice with which a
block is voted for, and the core and the block of a proposal and of a commit. -/
structure Rules (H Sig : Type) where
  slice : Slice H → Prop
  vote : Core H Sig → H → Slice H → Prop
  propose : Core H Sig → H → Prop
  commit : Core H Sig → H → Prop

/-- Nothing is known. -/
def Rules.any (H Sig : Type) : Rules H Sig :=
  ⟨fun _ => True, fun _ _ _ => True, fun _ _ => True, fun _ _ => True⟩

namespace Core

variable {c c' c'' : Core H Sig} {outs outs' : List (Output H Sig)} {R : Rules H Sig}

/-- Several steps, with what they have put out. -/
inductive Steps (T : Core H Sig → List (Output H Sig) → Core H Sig → Prop) :
    Core H Sig → List (Output H Sig) → Core H Sig → Prop
  | nil (c : Core H Sig) : Steps T c [] c
  | cons {c c' c'' : Core H Sig} {outs outs' : List (Output H Sig)} :
    T c outs c' → Steps T c' outs' c'' → Steps T c (outs ++ outs') c''

namespace Steps

variable {T T' : Core H Sig → List (Output H Sig) → Core H Sig → Prop}

theorem single (h : T c outs c') : Steps T c outs c' := by
  have := Steps.cons h (.nil c')
  rwa [List.append_nil] at this

theorem append (h : Steps T c outs c') (h' : Steps T c' outs' c'') :
    Steps T c (outs ++ outs') c'' := by
  induction h with
  | nil => exact h'
  | cons hr _ ih =>
    rw [List.append_assoc]
    exact .cons hr (ih h')

theorem mono (hT : ∀ c outs c', T c outs c' → T' c outs c') (h : Steps T c outs c') :
    Steps T' c outs c' := by
  induction h with
  | nil => exact .nil _
  | cons hr _ ih => exact .cons (hT _ _ _ hr) ih

end Steps

variable [DecidableEq H]

/-- The voting rule: above `vheight`, and with a certificate above the lock or on its chain. -/
def Approves (P : Primitives H Sig) (c : Core H Sig) (blk : H) : Prop :=
  c.vheight < c.height blk ∧
    (c.height c.bLock < c.height (P.justify blk) ∨ OnChain P.parent blk c.bLock)

omit [DecidableEq H] in
theorem Approves.delivered {blk : H} (hc : c.Dag P) (h : c.Approves P blk) :
    c.delivered blk = true :=
  hc.delivered_of_height (Nat.zero_lt_of_lt h.1)

theorem opinion_eq (hc : c.WellFormed P) (blk : H) :
    ∃ o, c.opinion blk = .ok o ∧ (o = true ↔ c.Approves P blk) := by
  unfold opinion
  split
  · rename_i hle
    refine ⟨false, rfl, ?_⟩
    simp only [Bool.false_eq_true, false_iff]
    intro h
    have := h.1
    omega
  · rename_i hgt
    have hd := hc.dag.delivered_of_height (h := blk) (by omega)
    simp only [hc.dag.qcRef_eq hd, Option.any_some, decide_eq_true_eq]
    split
    · rename_i hlive
      exact ⟨true, rfl, by simp only [true_iff]; exact ⟨by omega, Or.inl hlive⟩⟩
    · rename_i hlive
      obtain ⟨q, e, he, hiff⟩ := hc.dag.walkDown_end hc.lockDelivered hd
      refine ⟨decide (e = c.bLock), by rw [he]; rfl, ?_⟩
      rw [decide_eq_true_eq, hiff]
      constructor
      · intro hon
        exact ⟨by omega, Or.inr hon⟩
      · rintro ⟨_, h | h⟩
        · exact absurd h hlive
        · exact h

/-- The tasks that settle promises before the vote is sent. -/
def finishTasks (c : Core H Sig) (prop : Proposal H) : List (Task H Sig) :=
  if prop.proposer = c.id then [] else (c.qcRef prop.blk).toList.map .onQcFinish

theorem castVote_eq (hc : c.WellFormed P) (prop : Proposal H) :
    ∃ o : Bool, (o = true ↔ c.Approves P prop.blk) ∧
      c.castVote P prop = ⟨if o then { c with vheight := c.height prop.blk } else c, [],
        c.finishTasks prop ++ .onReceiveProposal_ prop ::
          (if o && !c.voteDisabled then [.doVote prop.proposer (c.voteFor P prop.blk)] else []),
        none⟩ := by
  obtain ⟨o, ho, hiff⟩ := opinion_eq hc prop.blk
  refine ⟨o, hiff, ?_⟩
  unfold castVote
  rw [ho]
  cases o <;> rfl

/-- `update` for `nblk` is about to commit `b`. -/
structure Decides (P : Primitives H Sig) (c : Core H Sig) (nblk b : H) : Prop where
  nblkDelivered : c.delivered nblk = true
  justifyDelivered : c.delivered (P.justify nblk) = true
  completes : P.Completes nblk b
  certified : c.decided (P.justify nblk) = false
  locked : c.decided (P.justify (P.justify nblk)) = false
  undecided : c.decided b = false
  raised : c.Raised P nblk

/-- `commit` for the block below a three-chain runs through a queue down to `b_exec`. -/
structure CommitsTo (P : Primitives H Sig) (c : Core H Sig) (nblk b : H) (r : Res H Sig)
    (done : List H) : Prop extends c.Decides P nblk b where
  onExec : up P.parent (c.height b - c.height c.bExec) b = some c.bExec
  committed : c.Committed (path P.parent (c.height b - c.height c.bExec) b).reverse r done

/-- A slice that passes its checks is put into the container. -/
structure Takes (P : Primitives H Sig) (R : Rules H Sig) (sc : ShardsContainer H) (s : Slice H)
    (sc' : ShardsContainer H) : Prop where
  rule : R.slice s
  valid : s.validate P.sha256Hex = true
  inserted : ∃ rc, sc.insertShard s.mBlkHash (s.mIndex % 2 ^ 32).toNat s.mData = .ok (rc, sc')

/-- The steps that a call is made of, up to the vote and the commit. -/
inductive PreMove (P : Primitives H Sig) (R : Rules H Sig) :
    Core H Sig → List (Output H Sig) → Core H Sig → Prop
  | shards {c : Core H Sig} {s : Slice H} {sc : ShardsContainer H} :
    Takes P R c.sc s sc → PreMove P R c [] { c with sc := sc }
  | slice {c : Core H Sig} {s : Slice H} : R.slice s → s.validate P.sha256Hex = true →
    PreMove P R c [.doBroadcastSlice s] c
  | prepare {c c' : Core H Sig} {nblk : H} {outs : List (Output H Sig)} :
    c.delivered nblk = true → c.Prepared P nblk c' outs → PreMove P R c outs c'
  | propose {c c' : Core H Sig} {bnew : H} : c.Grows P c' bnew → c'.delivered bnew = true →
    P.justify bnew = c.hqc.1 ∨ c.delivered bnew = true → R.propose c bnew → PreMove P R c [] c'

/-- The steps that a call is made of, up to the vote. -/
inductive Move (P : Primitives H Sig) (R : Rules H Sig) :
    Core H Sig → List (Output H Sig) → Core H Sig → Prop
  | pre {c c' : Core H Sig} {outs : List (Output H Sig)} :
    PreMove P R c outs c' → Move P R c outs c'
  | commit {c : Core H Sig} {nblk b : H} {r : Res H Sig} {done : List H} :
    c.CommitsTo P nblk b r done → R.commit c nblk → r.exit = none →
      Move P R c r.outs { r.core with bExec := b }

theorem Takes.keeps {sc sc' : ShardsContainer H} {s : Slice H} (h : Takes P R sc s sc') :
    sc.Keeps sc' :=
  ShardsContainer.insertShard_keeps h.inserted.choose_spec

theorem PreMove.wellFormed (h : PreMove P R c outs c') (hc : c.WellFormed P) :
    c'.WellFormed P := by
  cases h with
  | shards _ => exact hc.with_shards _
  | slice _ _ => exact hc
  | prepare _ hp => exact hp.wellFormed hc
  | propose hg _ _ _ => exact hg.wellFormed

theorem Steps.move (h : Steps (PreMove P R) c outs c') : Steps (Move P R) c outs c' :=
  h.mono fun _ _ _ => .pre

omit [DecidableEq H] in
theorem Decides.delivered {nblk b : H} (h : c.Decides P nblk b) (hc : c.WellFormed P) :
    c.delivered b = true := by
  obtain ⟨b₁, b₂, hb₂, hp₂, _, hp₁, _⟩ := h.completes
  have hd₂ := h.justifyDelivered
  rw [hb₂] at hd₂
  exact hc.dag.delivered_parent (hc.dag.delivered_parent hd₂ hp₂) hp₁

omit [DecidableEq H] in
theorem CommitsTo.queue_delivered {nblk b : H} {r : Res H Sig} {done : List H}
    (h : c.CommitsTo P nblk b r done) (hc : c.WellFormed P) :
    c.delivered b = true ∧
      ∀ x ∈ (path P.parent (c.height b - c.height c.bExec) b).reverse, c.delivered x = true := by
  have hd := h.toDecides.delivered hc
  refine ⟨hd, fun x hx => ?_⟩
  obtain ⟨i, _, hi⟩ := (mem_path h.onExec).mp (List.mem_reverse.mp hx)
  exact hc.dag.delivered_onChain hd ⟨i, hi⟩

omit [DecidableEq H] in
theorem WellFormed.with_hqc (hc : c.WellFormed P) {hqc : H × QuorumCert H Sig}
    (hd : c.delivered hqc.1 = true) (hobj : hqc.2.objHash = hqc.1) :
    ({ c with hqc := hqc } : Core H Sig).WellFormed P :=
  have hs : c.SameDag { c with hqc := hqc } := .of_storage rfl rfl
  { hc with dag := hs.dag hc.dag, hqcDelivered := hd, hqcCert := hobj }

omit [DecidableEq H] in
theorem WellFormed.with_exec (hc : c.WellFormed P) {b : H} (hb : c.delivered b = true) :
    ({ c with bExec := b } : Core H Sig).WellFormed P :=
  have hs : c.SameDag { c with bExec := b } := .of_storage rfl rfl
  { hc with dag := hs.dag hc.dag, execDelivered := hb }

theorem Move.wellFormed (h : Move P R c outs c') (hc : c.WellFormed P) : c'.WellFormed P := by
  cases h with
  | pre hp => exact hp.wellFormed hc
  | commit hcom _ _ =>
    obtain ⟨hd, hq⟩ := hcom.queue_delivered hc
    have hwf := hcom.committed.wellFormed hc hq
    exact hwf.with_exec (by rw [hcom.committed.sameDag.delivered, hd])

theorem Steps.wellFormed (h : Steps (Move P R) c outs c') (hc : c.WellFormed P) :
    c'.WellFormed P := by
  induction h with
  | nil => exact hc
  | cons hm _ ih => exact ih (hm.wellFormed hc)

omit [DecidableEq H] in
theorem CommitsTo.raised_after {nblk b : H} {r : Res H Sig} {done : List H}
    (h : c.CommitsTo P nblk b r done) :
    ({ r.core with bExec := b } : Core H Sig).Raised P nblk := by
  have hs := h.committed.sameDag
  intro hd
  change r.core.delivered (P.justify nblk) = true at hd
  rw [hs.delivered] at hd
  change r.core.decided _ = true ∨ r.core.decided _ = true ∨
    r.core.height _ ≤ r.core.height r.core.bLock
  rw [hs.height, hs.height, h.committed.same.bLock]
  rcases h.raised hd with h₁ | h₁ | h₁
  · exact Or.inl ((h.committed.decided _).mpr (Or.inl h₁))
  · exact Or.inr (Or.inl ((h.committed.decided _).mpr (Or.inl h₁)))
  · exact Or.inr (Or.inr h₁)

/-- `update` in steps. -/
theorem update_steps (hc : c.WellFormed P) {nblk : H} (hd : c.delivered nblk = true) :
    ∃ c' outs, c.Prepared P nblk c' outs ∧
      (c'.Raised P nblk ∧ c.update P nblk = ⟨c', outs, [], none⟩ ∨
        (∃ f, c.UpdateFails P nblk f ∧ c.update P nblk = ⟨c', outs, [], some f⟩) ∨
        (∃ b e, c'.Decides P nblk b ∧ up P.parent (c'.height b - c'.height c'.bExec) b = some e ∧
          e ≠ c'.bExec ∧ c.update P nblk = ⟨c', outs, [], some (.throw .safetyBreached)⟩) ∨
        ∃ b r done, c'.CommitsTo P nblk b r done ∧
          (r.exit = none ∧
              c.update P nblk = ⟨{ r.core with bExec := b }, outs ++ r.outs, [], none⟩ ∨
            ∃ f, r.exit = some f ∧ c.update P nblk = ⟨r.core, outs ++ r.outs, [], some f⟩)) := by
  obtain ⟨c', outs, hprep,
    ⟨hraised, hres | ⟨b, hcomp, hjd, hdec₂, hdec₁, hdec, hres⟩⟩ | hfails⟩ := update_cases hc hd
  · exact ⟨c', outs, hprep, Or.inl ⟨hraised, hres⟩⟩
  swap
  · exact ⟨c', outs, hprep, Or.inr (Or.inl hfails)⟩
  refine ⟨c', outs, hprep, Or.inr (Or.inr ?_)⟩
  have hc' := hprep.wellFormed hc
  have hdecides : c'.Decides P nblk b :=
    ⟨by rw [hprep.sameDag.delivered, hd], by rw [hprep.sameDag.delivered, hjd], hcomp,
      by rw [hprep.decided, hdec₂], by rw [hprep.decided, hdec₁], by rw [hprep.decided, hdec],
      hraised⟩
  have hbd := hdecides.delivered hc'
  rw [hres, Res.bind_none rfl]
  obtain ⟨e, hup, ⟨hne, hfail⟩ | ⟨rfl, hcom⟩⟩ := commit_cases hc' hbd
  · exact Or.inl ⟨b, e, hdecides, hup, hne, by simp [hfail, Res.fail]⟩
  · right
    obtain ⟨done, hcommitted⟩ :=
      commitAll_committed c' (path P.parent (c'.height b - c'.height c'.bExec) b).reverse
    have hto : c'.CommitsTo P nblk b
        (c'.commitAll (path P.parent (c'.height b - c'.height c'.bExec) b).reverse) done :=
      { hdecides with onExec := hup, committed := hcommitted }
    refine ⟨b, _, done, hto, ?_⟩
    have htasks := hcommitted.tasks
    rw [hcom]
    generalize c'.commitAll _ = r at *
    cases hexit : r.exit with
    | none =>
      refine Or.inl ⟨rfl, ?_⟩
      rw [Res.bind_none hexit]
      simp [Res.ok, htasks]
    | some f =>
      refine Or.inr ⟨f, rfl, ?_⟩
      rw [Res.bind_some hexit]
      simp [htasks, hexit]

/-- What follows the vote: nothing for a received proposal, for an own one its broadcast. -/
def AfterVote (R : Rules H Sig) (c u : Core H Sig) (own : Option H) (prop : Proposal H)
    (extra : List (Task H Sig)) : Prop :=
  own = none ∧ extra = [] ∨
    own = some prop.blk ∧ prop.proposer = c.id ∧ u.hqc = c.hqc ∧ u.vheight < u.height prop.blk ∧
      ∃ props : List (Proposal H),
        extra = [.onPropose_ prop, .doBroadcastProposalWithSlice props, .pacemaker] ∧
          ∀ p ∈ props, p.blk = prop.blk ∧ p.proposer = c.id ∧ R.slice p.slice

/-- How a call for a proposal ends: "safety breached", in another fault, within a commit, or at
the vote. -/
inductive Ends (P : Primitives H Sig) (R : Rules H Sig) (c : Core H Sig) (own : Option H) :
    Res H Sig → Prop
  | breach {c' : Core H Sig} {outs : List (Output H Sig)} {nblk b e : H} :
    Steps (PreMove P R) c outs c' → c'.Decides P nblk b →
      up P.parent (c'.height b - c'.height c'.bExec) b = some e → e ≠ c'.bExec →
        Ends P R c own ⟨c', outs, [], some (.throw .safetyBreached)⟩
  | fault {c' : Core H Sig} {outs : List (Output H Sig)} {f : Fault} :
    Steps (Move P R) c outs c' → f ≠ .throw .safetyBreached →
      Ends P R c own ⟨c', outs, [], some f⟩
  | commit {c' : Core H Sig} {outs : List (Output H Sig)} {nblk b : H} {r : Res H Sig}
    {done : List H} {f : Fault} :
    Steps (PreMove P R) c outs c' → c'.CommitsTo P nblk b r done → R.commit c' nblk →
      r.exit = some f → Ends P R c own ⟨r.core, outs ++ r.outs, [], some f⟩
  | vote {u : Core H Sig} {outs : List (Output H Sig)} {extra : List (Task H Sig)}
    {prop : Proposal H} : Steps (Move P R) c outs u → .doBroadcastSlice prop.slice ∈ outs →
      R.vote u prop.blk prop.slice → AfterVote R c u own prop extra →
      Ends P R c own
        ⟨(u.castVote P prop).core, outs, (u.castVote P prop).tasks ++ extra, none⟩

theorem onReceiveSlice_eq (c : Core H Sig) (s : Slice H) :
    c.onReceiveSlice P s = .ok c ∨ c.onReceiveSlice P s = .fail c .undefined ∨
      s.validate P.sha256Hex = true ∧ ∃ rc sc,
        c.sc.insertShard s.mBlkHash (s.mIndex % 2 ^ 32).toNat s.mData = .ok (rc, sc) ∧
          c.onReceiveSlice P s = .ok { c with sc := sc } := by
  unfold onReceiveSlice
  split
  · rename_i hv
    rcases ShardsContainer.insertShard_cases c.sc s.mBlkHash (s.mIndex % 2 ^ 32).toNat s.mData with
      he | ⟨rc, sc, hok, _⟩
    · rw [he]
      exact Or.inr (Or.inl rfl)
    · rw [hok]
      exact Or.inr (Or.inr ⟨hv, rc, sc, rfl, rfl⟩)
  · exact Or.inl rfl

theorem onReceiveSlice_ok {s : Slice H} {c₀ : Core H Sig} (h : c.onReceiveSlice P s = .ok c₀) :
    ∃ sc, c₀ = { c with sc := sc } := by
  obtain heq | heq | ⟨_, _, sc, _, heq⟩ := onReceiveSlice_eq (P := P) c s
  · rw [heq] at h
    exact ⟨c.sc, (congrArg Res.core h).symm⟩
  · rw [heq] at h
    exact absurd (congrArg Res.exit h) (by simp [Res.ok, Res.fail])
  · rw [heq] at h
    exact ⟨sc, (congrArg Res.core h).symm⟩

/-- A slice that is taken in is a step of the core. -/
theorem onReceiveSlice_steps (c : Core H Sig) {s : Slice H} (hs : R.slice s) :
    ∃ sc, c.sc.Keeps sc ∧ Steps (PreMove P R) c [] { c with sc := sc } ∧
      (c.onReceiveSlice P s = .ok { c with sc := sc } ∨
        c.onReceiveSlice P s = .fail { c with sc := sc } .undefined) := by
  rcases onReceiveSlice_eq (P := P) c s with h | h | ⟨hv, rc, sc, hok, h⟩
  · exact ⟨c.sc, .refl _, .nil c, Or.inl h⟩
  · exact ⟨c.sc, .refl _, .nil c, Or.inr h⟩
  · exact ⟨sc, ShardsContainer.insertShard_keeps hok, .single (.shards ⟨hs, hv, rc, hok⟩), Or.inl h⟩

theorem castVote_exit (hc : c.WellFormed P) (prop : Proposal H) :
    (c.castVote P prop).outs = [] ∧ (c.castVote P prop).exit = none := by
  obtain ⟨_, _, h⟩ := castVote_eq hc prop
  rw [h]
  exact ⟨rfl, rfl⟩

/-- A received proposal, from `update` on. -/
theorem update_castVote_ends {u : Core H Sig} {prop : Proposal H}
    (hpre : Steps (PreMove P R) c outs u) (hs : .doBroadcastSlice prop.slice ∈ outs)
    (hc : u.WellFormed P) (hd : u.delivered prop.blk = true)
    (hcommit : ∀ v outs, u.Prepared P prop.blk v outs → R.commit v prop.blk)
    (hvote : (u.update P prop.blk).core.Raised P prop.blk →
      R.vote (u.update P prop.blk).core prop.blk prop.slice) :
    Ends P R c none
      ⟨((u.update P prop.blk).bind fun c => c.castVote P prop).core,
        outs ++ ((u.update P prop.blk).bind fun c => c.castVote P prop).outs,
        ((u.update P prop.blk).bind fun c => c.castVote P prop).tasks,
        ((u.update P prop.blk).bind fun c => c.castVote P prop).exit⟩ := by
  -- the vote is cast in the state that `update` leaves when it returns
  have hends {v : Core H Sig} {outs' : List (Output H Sig)}
      (hsteps : Steps (Move P R) u outs' v) (hr : v.Raised P prop.blk)
      (hup : u.update P prop.blk = ⟨v, outs', [], none⟩) :
      Ends P R c none
        ⟨((u.update P prop.blk).bind fun c => c.castVote P prop).core,
          outs ++ ((u.update P prop.blk).bind fun c => c.castVote P prop).outs,
          ((u.update P prop.blk).bind fun c => c.castVote P prop).tasks,
          ((u.update P prop.blk).bind fun c => c.castVote P prop).exit⟩ := by
    rw [hup] at hvote ⊢
    obtain ⟨ho, he⟩ := castVote_exit (hsteps.wellFormed hc) prop
    have hv : Ends P R c none _ := .vote (hpre.move.append hsteps)
      (List.mem_append_left outs' hs) (hvote hr) (Or.inl ⟨rfl, rfl⟩)
    rw [Res.bind_none rfl, ho, he]
    simpa using hv
  obtain ⟨u', outs', hprep, ⟨hraised, h⟩ | ⟨f, hfails, h⟩ | ⟨b, e, hdec, hup, hne, h⟩ |
    ⟨b, r, done, hto, ⟨hexit, h⟩ | ⟨f, hexit, h⟩⟩⟩ := update_steps hc hd
  · exact hends (.single (.pre (.prepare hd hprep))) hraised h
  · rw [h, Res.bind_some rfl]
    have hf : Ends P R c none _ :=
      .fault (hpre.append (.single (.prepare hd hprep))).move (hfails.decode.ne_throw _)
    simpa using hf
  · rw [h, Res.bind_some rfl]
    have hb : Ends P R c none _ :=
      .breach (hpre.append (.single (.prepare hd hprep))) hdec hup hne
    simpa using hb
  · exact hends ((Steps.single (Move.pre (.prepare hd hprep))).append
      (.single (.commit hto (hcommit _ _ hprep) hexit))) hto.raised_after h
  · rw [h, Res.bind_some rfl]
    have hcom : Ends P R c none _ :=
      .commit (hpre.append (.single (.prepare hd hprep))) hto (hcommit _ _ hprep) hexit
    rwa [List.append_assoc] at hcom

/-- `on_receive_proposal` after the slice has been taken in. -/
theorem onReceiveProposalBy_eq (update : Core H Sig → H → Res H Sig) {c₀ : Core H Sig}
    {prop : Proposal H} (hslice : c.onReceiveSlice P prop.slice = .ok c₀) :
    c.onReceiveProposalBy P update prop = .fail c .assertion ∨
      c.onReceiveProposalBy P update prop =
        let r := (if prop.proposer = c₀.id then Res.ok c₀
          else if c₀.delivered prop.blk then update c₀ prop.blk
          else Res.fail c₀ (.throw .blockNotDelivered)).bind fun c => c.castVote P prop
        ⟨r.core, .doBroadcastSlice prop.slice :: r.outs, r.tasks, r.exit⟩ := by
  unfold onReceiveProposalBy
  split
  · right
    rw [hslice, Res.bind_none rfl, Res.emit, Res.bind_none rfl]
    rfl
  · exact Or.inl rfl

theorem onReceiveProposalBy_fault (update : Core H Sig → H → Res H Sig) {c₀ : Core H Sig}
    {prop : Proposal H} {f : Fault} (hslice : c.onReceiveSlice P prop.slice = .fail c₀ f) :
    c.onReceiveProposalBy P update prop = .fail c₀ f ∨
      c.onReceiveProposalBy P update prop = .fail c .assertion := by
  unfold onReceiveProposalBy
  split
  · rw [hslice, Res.bind_some rfl]
    exact Or.inl rfl
  · exact Or.inr rfl

theorem onReceiveProposal_eq {c₀ : Core H Sig} {prop : Proposal H}
    (hslice : c.onReceiveSlice P prop.slice = .ok c₀) :
    c.onReceiveProposal P prop = .fail c .assertion ∨
      c.onReceiveProposal P prop =
        let r := (if prop.proposer = c₀.id then Res.ok c₀
          else if c₀.delivered prop.blk then c₀.update P prop.blk
          else Res.fail c₀ (.throw .blockNotDelivered)).bind fun c => c.castVote P prop
        ⟨r.core, .doBroadcastSlice prop.slice :: r.outs, r.tasks, r.exit⟩ :=
  onReceiveProposalBy_eq (update P) hslice

theorem onReceiveProposal_fault {c₀ : Core H Sig} {prop : Proposal H} {f : Fault}
    (hslice : c.onReceiveSlice P prop.slice = .fail c₀ f) :
    c.onReceiveProposal P prop = .fail c₀ f ∨ c.onReceiveProposal P prop = .fail c .assertion :=
  onReceiveProposalBy_fault (update P) hslice

/-- `on_receive_proposal` for the proposal of another replica. -/
theorem onReceiveProposal_ends (hc : c.WellFormed P) {prop : Proposal H}
    (hid : prop.proposer ≠ c.id) (hs : R.slice prop.slice)
    (hcommit : ∀ u outs, (c.onReceiveSlice P prop.slice).core.Prepared P prop.blk u outs →
      R.commit u prop.blk)
    (hvote : ((c.onReceiveSlice P prop.slice).core.update P prop.blk).core.Raised P prop.blk →
      R.vote ((c.onReceiveSlice P prop.slice).core.update P prop.blk).core prop.blk prop.slice) :
    Ends P R c none (c.onReceiveProposal P prop) := by
  obtain ⟨sc, _, hsteps, hslice | hslice⟩ := onReceiveSlice_steps c hs
  · have hwf := hc.with_shards (P := P) sc
    have hid₀ : prop.proposer ≠ ({ c with sc := sc } : Core H Sig).id := hid
    rw [hslice, Res.ok] at hcommit hvote
    generalize ({ c with sc := sc } : Core H Sig) = c₀ at *
    rcases onReceiveProposal_eq hslice with h | h
    · rw [h]
      exact .fault (.nil c) (by simp)
    · by_cases hok : prop.slice.validate P.sha256Hex = true
      · have hpre := hsteps.append (.single (.slice hs hok))
        rw [h, if_neg hid₀]
        split
        · rename_i hd
          exact update_castVote_ends hpre List.mem_cons_self hwf hd hcommit hvote
        · exact .fault hpre.move (by simp)
      · rw [onReceiveProposal, if_neg fun hp => hok hp.2]
        exact .fault (.nil c) (by simp)
  · rcases onReceiveProposal_fault hslice with h | h
    · rw [h]
      exact .fault hsteps.move (by simp)
    · rw [h]
      exact .fault (.nil c) (by simp)

/-- `on_receive_proposal` for an own proposal. -/
theorem onReceiveProposal_own (hc : c.WellFormed P) {prop : Proposal H}
    (hid : prop.proposer = c.id) (hs : R.slice prop.slice) :
    ∃ sc, c.sc.Keeps sc ∧ ((Steps (PreMove P R) c [] { c with sc := sc } ∧
        ∃ f, f ≠ .throw .safetyBreached ∧
          c.onReceiveProposal P prop = .fail { c with sc := sc } f) ∨
      Steps (PreMove P R) c [.doBroadcastSlice prop.slice] { c with sc := sc } ∧
        c.onReceiveProposal P prop = ⟨(({ c with sc := sc } : Core H Sig).castVote P prop).core,
          [.doBroadcastSlice prop.slice],
          (({ c with sc := sc } : Core H Sig).castVote P prop).tasks, none⟩) := by
  obtain ⟨sc, hkeep, hsteps, hslice | hslice⟩ := onReceiveSlice_steps c hs
  · have hwf := hc.with_shards (P := P) sc
    have hid₀ : prop.proposer = ({ c with sc := sc } : Core H Sig).id := hid
    by_cases hok : prop.slice.validate P.sha256Hex = true
    · rcases onReceiveProposal_eq hslice with h | h
      · exact ⟨c.sc, .refl _, Or.inl ⟨.nil c, _, by simp, h⟩⟩
      · refine ⟨sc, hkeep, Or.inr ⟨hsteps.append (.single (.slice hs hok)), ?_⟩⟩
        generalize ({ c with sc := sc } : Core H Sig) = c₀ at *
        obtain ⟨ho, he⟩ := castVote_exit hwf prop
        rw [h, if_pos hid₀, Res.bind_none rfl]
        dsimp only [Res.ok]
        rw [ho, he]
        rfl
    · rw [onReceiveProposal, if_neg fun hp => hok hp.2]
      exact ⟨c.sc, .refl _, Or.inl ⟨.nil c, _, by simp, rfl⟩⟩
  · rcases onReceiveProposal_fault hslice with h | h
    · exact ⟨sc, hkeep, Or.inl ⟨hsteps, _, by simp, h⟩⟩
    · exact ⟨c.sc, .refl _, Or.inl ⟨.nil c, _, by simp, h⟩⟩

/-- `on_receive_proposal` in general. -/
theorem onReceiveProposal_ends_any (hc : c.WellFormed P) (prop : Proposal H) :
    Ends P (.any H Sig) c none (c.onReceiveProposal P prop) := by
  by_cases hid : prop.proposer = c.id
  · obtain ⟨sc, _, ⟨hsteps, f, hf, h⟩ | ⟨hsteps, h⟩⟩ :=
      onReceiveProposal_own (R := .any H Sig) hc hid trivial
    · rw [h]
      exact .fault hsteps.move hf
    · have hmem : Output.doBroadcastSlice prop.slice ∈
          [(.doBroadcastSlice prop.slice : Output H Sig)] := List.mem_singleton_self _
      have hends : Ends P (.any H Sig) c none _ :=
        .vote hsteps.move hmem trivial (Or.inl ⟨rfl, rfl⟩)
      rw [List.append_nil] at hends
      rw [h]
      exact hends
  · exact onReceiveProposal_ends hc hid trivial (fun _ _ _ => trivial) fun _ => trivial

theorem MerkleTree_build_fault (sha : Bytes → Bytes) (fuel : Nat) (level : List Bytes) {f : Fault}
    (h : MerkleTree.build sha fuel level = .error f) : f = .diverges := by
  induction fuel generalizing level with
  | zero =>
    rw [MerkleTree.build] at h
    exact (Except.error.inj h).symm
  | succ fuel ih =>
    unfold MerkleTree.build at h
    split at h
    · cases h
    · cases hb : MerkleTree.build sha fuel (MerkleTree.pairUp sha (MerkleTree.padLevel level)) with
      | error f' =>
        rw [hb] at h
        obtain rfl : f' = f := Except.error.inj h
        exact ih _ hb
      | ok x =>
        rw [hb] at h
        cases h

/-- Slice `i` of those that `on_propose` makes of the commands. -/
def OwnSlice (P : Primitives H Sig) (c : Core H Sig) (cmds : List UInt256) (bnew : H) (i : Nat)
    (s : Slice H) : Prop :=
  ∃ shards proofs, c.rse.encode P.leopard (encodeInput cmds) = .ok (0, shards) ∧
    MerkleTree.proofs P.sha256Hex shards = .ok proofs ∧
      ∃ proof, proofs[i]? = some proof ∧ s = { proof with mBlkHash := bnew }

/-- `on_propose` from the encoding on. -/
theorem sendProposal_cases (c : Core H Sig) (cmds : List UInt256) (bnew : H) :
    (∃ f, f ≠ .throw .safetyBreached ∧ c.sendProposal P cmds bnew = .fail c f) ∨
      ∃ props prop, c.vheight < c.height bnew ∧ prop.blk = bnew ∧ prop.proposer = c.id ∧
        c.OwnSlice P cmds bnew c.id prop.slice ∧
        (∀ p ∈ props, p.blk = prop.blk ∧ p.proposer = c.id ∧ ∃ i, c.OwnSlice P cmds bnew i p.slice) ∧
        c.sendProposal P cmds bnew = (c.onReceiveProposal P prop).bind fun c =>
          ⟨c, [], [.onPropose_ prop, .doBroadcastProposalWithSlice props, .pacemaker], none⟩ := by
  unfold sendProposal
  split
  · rename_i f hf
    rw [RSE.encode_fault _ _ _ _ hf]
    exact Or.inl ⟨_, by simp, rfl⟩
  rename_i rst shards henc
  split
  · exact Or.inl ⟨_, by simp, rfl⟩
  rename_i hrst
  split
  · rename_i f hf
    have hdiv : f = .diverges := by
      unfold MerkleTree.proofs at hf
      cases hb : MerkleTree.build P.sha256Hex (_ + 1) _ with
      | error f' =>
        rw [hb] at hf
        rw [← Except.error.inj hf]
        exact MerkleTree_build_fault _ _ _ hb
      | ok x =>
        rw [hb] at hf
        cases hf
    rw [hdiv]
    exact Or.inl ⟨_, by simp, rfl⟩
  rename_i proofs hproofs
  dsimp only
  split
  · exact Or.inl ⟨_, by simp, rfl⟩
  rename_i hgt
  split
  · exact Or.inl ⟨_, by simp, rfl⟩
  · rename_i prop hprop
    have hzero : rst = 0 := by
      by_contra hne
      exact hrst hne
    have hall (i : Nat) (p : Proposal H) (hp : (c.proposals P bnew proofs)[i]? = some p) :
        p.blk = bnew ∧ p.proposer = c.id ∧ c.OwnSlice P cmds bnew i p.slice := by
      rw [proposals, List.getElem?_map] at hp
      obtain ⟨proof, hproof, rfl⟩ := Option.map_eq_some_iff.mp hp
      exact ⟨rfl, rfl, shards, proofs, by rw [henc, hzero], hproofs, proof, hproof, rfl⟩
    obtain ⟨hblk, hid, hown⟩ := hall _ prop hprop
    refine Or.inr ⟨_, prop, by omega, hblk, hid, hown, fun p hp => ?_, rfl⟩
    obtain ⟨i, hi⟩ := List.mem_iff_getElem?.mp hp
    obtain ⟨hblk', hid', hown'⟩ := hall i p hi
    exact ⟨by rw [hblk', hblk], hid', i, hown'⟩

/-- The end of `on_propose`, in the state that `update` leaves. -/
theorem sendProposal_ends {u : Core H Sig} (hu : Steps (Move P R) c outs u) (hwf : u.WellFormed P)
    (hid : u.id = c.id) (cmds : List UInt256) (bnew : H)
    (hhqc : bnew ≠ P.genesisHash → u.hqc = c.hqc)
    (hs : ∀ i s, u.OwnSlice P cmds bnew i s → R.slice s)
    (hvote : ∀ sc s, u.OwnSlice P cmds bnew u.id s → R.vote { u with sc := sc } bnew s) :
    Ends P R c (some bnew) ⟨(u.sendProposal P cmds bnew).core, outs ++ (u.sendProposal P cmds bnew).outs,
      (u.sendProposal P cmds bnew).tasks, (u.sendProposal P cmds bnew).exit⟩ := by
  obtain ⟨f, hf, h⟩ | ⟨props, prop, hgt, rfl, hprop, hown, hprops, h⟩ :=
    sendProposal_cases (P := P) u cmds bnew
  · rw [h]
    simp only [Res.fail, List.append_nil]
    exact .fault hu hf
  · rw [h]
    obtain ⟨sc, _, ⟨hsteps, f, hf, hr⟩ | ⟨hsteps, hr⟩⟩ := onReceiveProposal_own hwf hprop (hs _ _ hown)
    · rw [hr, Res.bind_some rfl]
      have hlate : Ends P R c (some prop.blk) _ := .fault (hu.append hsteps.move) hf
      exact hlate
    · have hpieces : ∀ p ∈ props, p.blk = prop.blk ∧ p.proposer = c.id ∧ R.slice p.slice := by
        intro p hp
        obtain ⟨hblk, hid', i, hown'⟩ := hprops p hp
        exact ⟨hblk, by rw [hid', hid], hs i _ hown'⟩
      have hne : prop.blk ≠ P.genesisHash := by
        intro hgen
        rw [hgen, hwf.dag.height_genesis] at hgt
        omega
      have hends : Ends P R c (some prop.blk) _ := .vote (hu.append hsteps.move)
        (List.mem_append_right outs List.mem_cons_self) (hvote sc _ hown)
        (Or.inr ⟨rfl, by rw [hprop, hid], hhqc hne, hgt, props, rfl, hpieces⟩)
      rw [hr, Res.bind_none rfl]
      exact hends

theorem Prepared.id {nblk : H} (h : c.Prepared P nblk c' outs) : c'.id = c.id := by
  have hi := congrArg Core.id h.rest
  exact hi

/-- A block that carries the certificate for `hqc` does not move it. -/
theorem Prepared.hqc_of_justify {nblk : H} (h : c.Prepared P nblk c' outs)
    (hj : P.justify nblk = c.hqc.1) : c'.hqc = c.hqc := by
  rcases h.hqc with ⟨heq, _⟩ | ⟨_, hlt, _, _⟩
  · exact heq
  · rw [hj] at hlt
    exact absurd hlt (Nat.lt_irrefl _)

/-- The state in which `on_propose` calls `update` for its block. -/
def beforeOwnUpdate (P : Primitives H Sig) (c : Core H Sig) (cmds : List UInt256)
    (parents : List H) (extra : Bytes) : Core H Sig :=
  match parents.head? with
  | none => c
  | some p₀ =>
    ((c.storeProposed P cmds parents p₀ extra).onDeliverBlk
      (P.hashBlock (c.proposedData P cmds parents extra))).core

/-- The state in which `on_propose` lets the replica vote for its block. -/
def beforeOwnVote (P : Primitives H Sig) (c : Core H Sig) (cmds : List UInt256) (parents : List H)
    (extra : Bytes) : Core H Sig :=
  ((c.beforeOwnUpdate P cmds parents extra).update P
    (P.hashBlock (c.proposedData P cmds parents extra))).core

/-- `on_propose`. -/
theorem onPropose_ends (hc : c.WellFormed P) (cmds : List UInt256) (parents : List H)
    (extra : Bytes) {bnew : H} (hbnew : P.hashBlock (c.proposedData P cmds parents extra) = bnew)
    (hrule : parents.head? ≠ none → R.propose c bnew)
    (hs : ∀ i s, (c.beforeOwnVote P cmds parents extra).OwnSlice P cmds bnew i s → R.slice s)
    (hcommit : ∀ u outs, (c.beforeOwnUpdate P cmds parents extra).Prepared P bnew u outs →
      R.commit u bnew)
    (hvote : ∀ sc s, (c.beforeOwnVote P cmds parents extra).OwnSlice P cmds bnew
      (c.beforeOwnVote P cmds parents extra).id s → (c.beforeOwnVote P cmds parents extra).Raised P bnew →
        R.vote { c.beforeOwnVote P cmds parents extra with sc := sc } bnew s) :
    parents.all c.delivered = false ∧
        (c.onPropose P cmds parents extra).exit = some (.throw .blockNotDelivered) ∨
      Ends P R c (some bnew) (c.onPropose P cmds parents extra) := by
  unfold onPropose
  unfold beforeOwnVote at hs hvote
  unfold beforeOwnUpdate at hs hvote hcommit
  cases hp₀ : parents.head? with
  | none => exact Or.inr (.fault (.nil c) (by simp))
  | some p₀ =>
    have hprop := hrule (by simp [hp₀])
    simp only [hp₀] at hs hvote hcommit
    dsimp only
    have hcert : P.hashBlock (c.proposedData P cmds parents extra) ≠ P.genesisHash →
        P.justify (P.hashBlock (c.proposedData P cmds parents extra)) = c.hqc.1 := by
      intro hgen
      rw [Primitives.justify, P.content_eq rfl hgen]
      exact hc.hqcCert
    have hjust : P.justify (P.hashBlock (c.proposedData P cmds parents extra)) = c.hqc.1 ∨
        c.delivered (P.hashBlock (c.proposedData P cmds parents extra)) = true := by
      by_cases hgen : P.hashBlock (c.proposedData P cmds parents extra) = P.genesisHash
      · rw [hgen]
        exact Or.inr hc.dag.delivered_genesis
      · exact Or.inl (hcert hgen)
    rw [hbnew] at hs hvote hcommit hcert hjust ⊢
    rcases storeProposed_delivers hc hp₀ hbnew rfl with ⟨hpar, hexit⟩ | ⟨c₁, hok, hgrow, hd⟩
    · exact Or.inl ⟨hpar, by rw [Res.bind_some hexit, hexit]⟩
    · right
      rw [hok, Res.bind_none rfl]
      rw [hok, Res.ok] at hs hvote hcommit
      simp only [Res.ok, List.nil_append]
      have hpre := Steps.single (PreMove.propose (P := P) hgrow hd hjust hprop)
      -- the vote is cast in the state that `update` leaves when it returns
      have hends {v : Core H Sig} {outs : List (Output H Sig)}
          (hsteps : Steps (Move P R) c outs v) (hid : v.id = c.id)
          (hhqc : bnew ≠ P.genesisHash → v.hqc = c.hqc) (hr : v.Raised P bnew)
          (hup : c₁.update P bnew = ⟨v, outs, [], none⟩) :
          Ends P R c (some bnew) ((c₁.update P bnew).bind fun c => c.sendProposal P cmds bnew) := by
        rw [hup] at hs hvote
        rw [hup, Res.bind_none rfl]
        exact sendProposal_ends hsteps (hsteps.wellFormed hc) hid cmds bnew hhqc hs
          fun sc s hown => hvote sc s hown hr
      obtain ⟨c', outs, hprep, hcases⟩ := update_steps hgrow.wellFormed hd
      have hhqc (hne : bnew ≠ P.genesisHash) : c'.hqc = c.hqc := by
        rw [hprep.hqc_of_justify (by rw [hgrow.quiet.hqc, hcert hne]), hgrow.quiet.hqc]
      obtain ⟨hraised, h⟩ | ⟨f, hfails, h⟩ | ⟨b, e, hdec, hup, hne, h⟩ |
        ⟨b, r, done, hto, ⟨hexit, h⟩ | ⟨f, hexit, h⟩⟩ := hcases
      · exact hends (hpre.append (.single (.prepare hd hprep))).move
          (hprep.id.trans hgrow.quiet.id) hhqc hraised h
      · rw [h, Res.bind_some rfl]
        exact .fault (hpre.append (.single (.prepare hd hprep))).move (hfails.decode.ne_throw _)
      · rw [h, Res.bind_some rfl]
        exact .breach (hpre.append (.single (.prepare hd hprep))) hdec hup hne
      · exact hends ((hpre.append (.single (.prepare hd hprep))).move.append
          (.single (.commit hto (hcommit _ _ hprep) hexit)))
          ((hto.committed.same.id.trans hprep.id).trans hgrow.quiet.id)
          (fun hne => hto.committed.same.hqc.trans (hhqc hne)) hto.raised_after h
      · rw [h, Res.bind_some rfl]
        exact .commit (hpre.append (.single (.prepare hd hprep))) hto (hcommit _ _ hprep) hexit

/-- Vote `vote` has been counted. -/
structure Counts (P : Primitives H Sig) (c : Core H Sig) (vote : Vote H Sig) (c' : Core H Sig) :
    Prop where
  delivered : c.delivered vote.blkHash = true
  fresh : vote.voter ∉ c.voters vote.blkHash
  few : (c.voters vote.blkHash).length < c.config.nmajority
  rest : c' = { c with storage := c'.storage }
  sameDag : c.SameDag c'
  decided : ∀ h, c'.decided h = c.decided h
  voters : ∀ h, c'.voters h =
    if h = vote.blkHash then vote.voter :: c.voters h else c.voters h
  wellFormed : c'.WellFormed P

theorem modify_counts (hc : c.WellFormed P) {vote : Vote H Sig} {b : Block H Sig}
    {qc : QuorumCert H Sig} (hb : c.storage vote.blkHash = some b) (hd : b.delivered = true)
    (hfew : b.voted.length < c.config.nmajority) (hfresh : vote.voter ∉ b.voted)
    (hqc : qc.objHash = vote.blkHash) :
    c.Counts P vote (c.modify vote.blkHash fun b =>
      { b with voted := vote.voter :: b.voted, selfQc := some qc }) := by
  have hvot : c.voters vote.blkHash = b.voted := by simp [Core.voters, hb]
  have hsame : c.SameDag (c.modify vote.blkHash fun b =>
      { b with voted := vote.voter :: b.voted, selfQc := some qc }) := .modify fun _ => rfl
  have hput := modify_eq_put hb fun b : Block H Sig =>
    { b with voted := vote.voter :: b.voted, selfQc := some qc }
  have hdec (h : H) : (c.modify vote.blkHash fun b =>
      { b with voted := vote.voter :: b.voted, selfQc := some qc }).decided h = c.decided h := by
    rw [hput]
    by_cases hh : h = vote.blkHash
    · rw [hh, decided_of (put_self c _ _), decided_of hb]
    · rw [Core.decided, Core.decided, put_of_ne c _ hh]
  refine ⟨by rw [delivered_of hb, hd], by rwa [hvot], by rwa [hvot], rfl, hsame, hdec, ?_, ?_⟩
  · intro h
    rw [hput]
    split
    · rename_i hh
      rw [hh, hvot, Core.voters, put_self]
      rfl
    · rename_i hh
      rw [Core.voters, Core.voters, put_of_ne c _ hh]
  · refine hc.of_sameDag hsame hdec rfl rfl rfl rfl (List.Subset.refl _) ?_
    intro h b' qc' hb' hqc'
    rw [hput] at hb'
    by_cases hh : h = vote.blkHash
    · subst hh
      rw [put_self] at hb'
      rw [← Option.some.inj hb'] at hqc'
      rw [← Option.some.inj hqc', hqc]
    · rw [put_of_ne c _ hh] at hb'
      exact hc.selfQcHash hb' hqc'

theorem QuorumCert_addPart_hash {qc qc' : QuorumCert H Sig} {rid : ReplicaID} {pc : PartCert H Sig}
    (h : qc.addPart rid pc = .ok qc') : qc'.objHash = qc.objHash := by
  unfold QuorumCert.addPart at h
  split at h
  · cases h
  · split at h
    · rw [← Except.ok.inj h]
    · rw [← Except.ok.inj h]

/-- What `on_receive_vote` does. -/
theorem onReceiveVote_cases (hc : c.WellFormed P) (vote : Vote H Sig) :
    c.onReceiveVote vote = .fail c (.throw .blockNotDelivered) ∨ c.onReceiveVote vote = .ok c ∨
      ∃ c', c.Counts P vote c' ∧ (c.onReceiveVote vote = .fail c' (.throw .partCertMismatch) ∨
        c.onReceiveVote vote = .ok c' ∨
        (c'.voters vote.blkHash).length = c.config.nmajority ∧ ∃ hqc outs,
          c.onReceiveVote vote = ⟨{ c' with hqc := hqc }, outs, [.onQcFinish vote.blkHash], none⟩ ∧
            (hqc = c.hqc ∧ outs = [] ∨ outs = [.onHqcUpdate] ∧
              c.height c.hqc.1 < c.height vote.blkHash ∧ hqc.1 = vote.blkHash ∧
                hqc.2.objHash = vote.blkHash)) := by
  unfold onReceiveVote
  split
  · exact Or.inl rfl
  rename_i b hb
  have hvot : c.voters vote.blkHash = b.voted := by simp [voters, hb]
  split
  · exact Or.inl rfl
  rename_i hd
  have hd' : b.delivered = true := by simpa using hd
  split
  · exact Or.inr (Or.inl rfl)
  rename_i hfew
  split
  · exact Or.inr (Or.inl rfl)
  rename_i hfresh
  right
  right
  have hqc₀ : (b.selfQc.getD (.create c.config vote.blkHash)).objHash = vote.blkHash := by
    cases hq : b.selfQc with
    | none => rfl
    | some q => exact hc.selfQcHash hb hq
  dsimp only
  split
  · rename_i e he
    refine ⟨_, modify_counts hc hb hd' (by omega) hfresh hqc₀, Or.inl ?_⟩
    have hmis : e = .partCertMismatch := by
      unfold QuorumCert.addPart at he
      split at he
      · exact (Except.error.inj he).symm
      · split at he <;> cases he
    rw [hmis]
  · rename_i qc hadd
    have hqc : qc.objHash = vote.blkHash := (QuorumCert_addPart_hash hadd).trans hqc₀
    have hcounts := modify_counts hc hb hd' (by omega) hfresh hqc
    refine ⟨_, hcounts, Or.inr ?_⟩
    split
    · rename_i hmaj
      right
      refine ⟨?_, ?_⟩
      · rw [hcounts.voters, if_pos rfl, hvot]
        exact hmaj
      · unfold updateHqc
        split
        · rename_i hlt
          rw [hcounts.sameDag.height, hcounts.sameDag.height] at hlt
          exact ⟨_, _, rfl, Or.inr ⟨rfl, hlt, rfl, hqc⟩⟩
        · exact ⟨_, _, rfl, Or.inl ⟨rfl, rfl⟩⟩
    · exact Or.inl rfl

/-- A vote changes what is kept of its block and `hqc`, and decides nothing. -/
theorem onReceiveVote_rest (hc : c.WellFormed P) (vote : Vote H Sig) :
    (c.onReceiveVote vote).core = { c with
      storage := (c.onReceiveVote vote).core.storage
      hqc := (c.onReceiveVote vote).core.hqc } ∧
      ∀ h, (c.onReceiveVote vote).core.decided h = c.decided h := by
  obtain heq | heq | ⟨c', hcounts, heq | heq | ⟨_, hqc, _, heq, _⟩⟩ := onReceiveVote_cases hc vote
  · rw [heq]
    exact ⟨rfl, fun _ => rfl⟩
  · rw [heq]
    exact ⟨rfl, fun _ => rfl⟩
  · rw [heq]
    refine ⟨?_, hcounts.decided⟩
    change c' = _
    rw [hcounts.rest]
    rfl
  · rw [heq]
    refine ⟨?_, hcounts.decided⟩
    change c' = _
    rw [hcounts.rest]
    rfl
  · rw [heq]
    refine ⟨?_, hcounts.decided⟩
    change ({ c' with hqc := hqc } : Core H Sig) = _
    rw [hcounts.rest]

end Core
end LibHotStuff
