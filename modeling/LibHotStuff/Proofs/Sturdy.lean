import LibHotStuff.Proofs.Parsing
import LibHotStuff.Proofs.SliceBinding

namespace LibHotStuff

open Chain

variable {H Sig : Type} {P : Primitives H Sig}

/-- A call returns, or an exception leaves it. -/
def Res.Calm (r : Res H Sig) : Prop := ∀ f, r.exit = some f → f.Thrown

theorem Res.Calm.bind {r : Res H Sig} {k : Core H Sig → Res H Sig} (h : r.Calm)
    (hk : (k r.core).Calm) : (r.bind k).Calm := by
  cases hexit : r.exit with
  | none =>
    rw [Res.bind_none hexit]
    exact hk
  | some f =>
    rw [Res.bind_some hexit]
    exact h

theorem Res.Calm.of_none {r : Res H Sig} (h : r.exit = none) : r.Calm := by
  intro f hf
  rw [h] at hf
  cases hf

namespace ShardsContainer

/-- There is a place for each of `n` replicas. -/
structure Sized (n : Nat) (sc : ShardsContainer H) : Prop where
  nodenum : sc.nodenum = n
  places : ∀ h e, sc.shards h = some e → e.1.length = n

variable {n idx : Nat} {sc sc' : ShardsContainer H} {h : H} {data : Bytes}

variable [DecidableEq H]

theorem Sized.update (hs : sc.Sized n) {e : Option (List Bytes × Nat)}
    (he : ∀ x, e = some x → x.1.length = n) :
    ({ sc with shards := Function.update sc.shards h e } : ShardsContainer H).Sized n := by
  refine ⟨hs.nodenum, fun x y hy => ?_⟩
  change Function.update sc.shards h e x = some y at hy
  by_cases hx : x = h
  · subst hx
    rw [Function.update_self] at hy
    exact he y hy
  · rw [Function.update_of_ne hx] at hy
    exact hs.places x y hy

theorem Sized.newBlock (hs : sc.Sized n) (h : H) : (sc.newBlock h).Sized n := by
  unfold ShardsContainer.newBlock
  split
  · exact hs
  · apply hs.update
    intro x hx
    rw [← Option.some.inj hx, List.length_replicate, hs.nodenum]

/-- A shard goes to a place that is there. -/
theorem Sized.insertShard (hs : sc.Sized n) (hlt : idx < n) (h : H) (data : Bytes) :
    ∃ rc sc', sc.insertShard h idx data = .ok (rc, sc') := by
  obtain ⟨e, he⟩ : ∃ e, (sc.newBlock h).shards h = some e := by
    unfold ShardsContainer.newBlock
    split
    · rename_i e he
      exact ⟨e, he⟩
    · exact ⟨_, Function.update_self _ _ _⟩
  have hlen := (hs.newBlock h).places h e he
  unfold ShardsContainer.insertShard
  simp only [he, List.getElem?_eq_getElem (by rw [hlen]; exact hlt : idx < e.1.length)]
  split
  · exact ⟨_, _, rfl⟩
  · exact ⟨_, _, rfl⟩

theorem Sized.inserted (hs : sc.Sized n) {rc : Int}
    (hok : sc.insertShard h idx data = .ok (rc, sc')) : sc'.Sized n := by
  have hnew := hs.newBlock h
  unfold ShardsContainer.insertShard at hok
  dsimp only at hok
  split at hok
  · cases hok
  rename_i first second hentry
  split at hok
  · cases hok
  split at hok
  · simp only [Except.ok.injEq, Prod.mk.injEq] at hok
    rw [← hok.2]
    exact hnew
  · simp only [Except.ok.injEq, Prod.mk.injEq] at hok
    rw [← hok.2]
    apply hnew.update
    intro x hx
    rw [← Option.some.inj hx, List.length_set]
    exact hnew.places h _ hentry

end ShardsContainer

namespace Core

variable {c c' : Core H Sig} {n : Nat}

/-- No decoding has failed, and there is a place for each shard. -/
structure Sturdy (n : Nat) (c : Core H Sig) : Prop where
  futures : ∀ h f, c.futures h ≠ some (.error f)
  sized : c.sc.Sized n

theorem Sturdy.of_eq (h : c.Sturdy n) (hf : c'.futures = c.futures) (hs : c'.sc = c.sc) :
    c'.Sturdy n := by
  refine ⟨?_, ?_⟩
  · rw [hf]
    exact h.futures
  · rw [hs]
    exact h.sized

theorem bind_sturdy {r : Res H Sig} {k : Core H Sig → Res H Sig} (hr : r.core.Sturdy n)
    (hk : (k r.core).core.Sturdy n) : (r.bind k).core.Sturdy n := by
  cases hexit : r.exit with
  | some f =>
    rw [Res.bind_some hexit]
    exact hr
  | none =>
    rw [Res.bind_none hexit]
    exact hk

variable [DecidableEq H]

/-- The place of a slice is in the container, if its proof is right. -/
def placed (P : Primitives H Sig) (c : Core H Sig) (s : Slice H) : Bool :=
  !s.validate P.sha256Hex || decide (s.place < c.sc.nodenum)

/-- A block that is decoded from its shards can be decoded. -/
def startsWell (P : Primitives H Sig) (c : Core H Sig) (blk : H) : Bool :=
  match c.sc.getBlock blk with
  | (0, input) =>
    match asyncDecode P.leopard c.rse input with
    | .ok _ => true
    | .error _ => false
  | _ => true

/-- The block that `update` decodes, for the first time or again, can be decoded. -/
def decodes (P : Primitives H Sig) (c : Core H Sig) (nblk : H) : Bool :=
  (c.qcRef nblk).all fun blk2 => c.decided blk2 ||
    (c.qcRef blk2).all fun blk1 => c.decided blk1 || c.startsWell P blk1

omit [DecidableEq H] in
theorem startsWell_ok {blk : H} (h : c.startsWell P blk = true) {input : List Bytes}
    (hget : c.sc.getBlock blk = (0, input)) :
    ∃ cmds, asyncDecode P.leopard c.rse input = .ok cmds := by
  simp only [startsWell, hget] at h
  split at h
  · rename_i cmds hok
    exact ⟨cmds, hok⟩
  · cases h

omit [DecidableEq H] in
theorem not_decodeFails {blk : H} (h : c.startsWell P blk = true) (f : Fault) :
    ¬ c.DecodeFails P blk f := by
  rintro ⟨input, hget, hfail⟩
  obtain ⟨cmds, hok⟩ := startsWell_ok h hget
  rw [hok] at hfail
  cases hfail

theorem Sturdy.started (h : c.Sturdy n) {blk : H} {cmds : List UInt256} (x : H) (f : Fault) :
    Function.update c.futures blk (some (.ok cmds)) x ≠ some (.error f) := by
  by_cases hx : x = blk
  · subst hx
    rw [Function.update_self]
    simp
  · rw [Function.update_of_ne hx]
    exact h.futures x f

theorem startDecode_sturdy (h : c.Sturdy n) {blk : H} (hwell : c.startsWell P blk = true) :
    (c.startDecode P blk).core.Sturdy n := by
  obtain heq | ⟨input, hget, _, heq⟩ | ⟨f, hfails, _⟩ := startDecode_cases (P := P) c blk
  · rw [heq]
    exact h
  · obtain ⟨cmds, hok⟩ := startsWell_ok hwell hget
    rw [heq, hok]
    exact ⟨h.started, h.sized⟩
  · exact absurd hfails (not_decodeFails hwell f)

theorem commitBlk_sturdy (h : c.Sturdy n) (blk : H) : (c.commitBlk blk).core.Sturdy n := by
  unfold commitBlk
  dsimp only
  split
  · exact h.of_eq rfl rfl
  · exact h.of_eq rfl rfl
  · refine ⟨fun x f => ?_, ?_⟩
    · change Function.update c.futures blk none x ≠ some (.error f)
      by_cases hx : x = blk
      · subst hx
        rw [Function.update_self]
        simp
      · rw [Function.update_of_ne hx]
        exact h.futures x f
    · apply h.sized.update
      intro x hx
      cases hx

theorem commitAll_sturdy (h : c.Sturdy n) (xs : List H) : (c.commitAll xs).core.Sturdy n := by
  induction xs generalizing c with
  | nil => exact h
  | cons x xs ih => exact bind_sturdy (commitBlk_sturdy h x) (ih (commitBlk_sturdy h x))

theorem commit_sturdy (h : c.Sturdy n) (blk : H) : (c.commit blk).core.Sturdy n := by
  unfold commit
  split
  · exact h
  · split
    · exact h
    · have hall := commitAll_sturdy h
      exact bind_sturdy (hall _) ((hall _).of_eq rfl rfl)

theorem updateLock_sturdy (h : c.Sturdy n) {blk2 : H}
    (hwell : ∀ blk1, c.qcRef blk2 = some blk1 → c.decided blk1 = false →
      c.startsWell P blk1 = true) : (c.updateLock P blk2).core.Sturdy n := by
  unfold updateLock
  split
  · exact h
  rename_i blk1 hqc
  split
  · exact h
  rename_i hdec
  have hstart := startDecode_sturdy h (hwell blk1 hqc (by simpa using hdec))
  apply bind_sturdy hstart
  generalize (c.startDecode P blk1).core = c₀ at hstart
  have hlock : (c₀.lock blk1).Sturdy n := by
    unfold lock
    split
    · exact hstart.of_eq rfl rfl
    · exact hstart
  dsimp only
  generalize c₀.lock blk1 = c₁ at hlock
  split
  · exact hlock
  split
  · exact hlock
  split
  · exact hlock
  split
  · exact hlock
  split
  · exact hlock
  split
  · exact hlock
  · exact commit_sturdy hlock _

theorem updateLock_decided {blk1 blk2 : H} (hqc : c.qcRef blk2 = some blk1)
    (hdec : c.decided blk1 = true) : (c.updateLock P blk2).exit = none := by
  unfold updateLock
  simp only [hqc, hdec, if_true]
  rfl

/-- `update` for a delivered block leaves futures that return, and fails no assertion. -/
theorem update_sturdy (hc : c.WellFormed P) (h : c.Sturdy n) {nblk : H}
    (hd : c.delivered nblk = true) (hdecodes : c.decodes P nblk = true) :
    (c.update P nblk).core.Sturdy n ∧ (c.update P nblk).Calm := by
  obtain ⟨b, hb, _⟩ := stored_of_delivered hd
  have hqc := hc.dag.qcRef_eq hd
  have href : b.qcRef = some (P.justify nblk) := by rw [← qcRef_of hb, hqc]
  simp only [decodes, hqc, Option.all_some, Bool.or_eq_true] at hdecodes
  by_cases hdec : c.decided (P.justify nblk) = true
  · have heq : c.update P nblk = .ok c := by
      unfold update
      simp only [hb, href, hdec, if_true]
    rw [heq]
    exact ⟨h, .of_none rfl⟩
  have hwell : ∀ blk1, c.qcRef (P.justify nblk) = some blk1 → c.decided blk1 = false →
      c.startsWell P blk1 = true := by
    intro blk1 hblk1 hundec
    have hall := hdecodes.resolve_left hdec
    simpa [hblk1, hundec] using hall
  have hup : c.update P nblk =
      (c.updateHqc (P.justify nblk) b.qc).bind fun c => c.updateLock P (P.justify nblk) := by
    unfold update
    simp only [hb, href]
    rw [if_neg hdec]
  have hsturdy : (c.update P nblk).core.Sturdy n := by
    rw [hup]
    unfold updateHqc
    split
    · rw [Res.emit, Res.bind_none rfl]
      exact updateLock_sturdy (c := { c with hqc := (P.justify nblk, b.qc) }) (h.of_eq rfl rfl) hwell
    · rw [Res.ok, Res.bind_none rfl]
      exact updateLock_sturdy h hwell
  refine ⟨hsturdy, ?_⟩
  obtain ⟨c', outs, hprep, ⟨_, heq⟩ | ⟨f, hfails, _⟩ | ⟨_, _, _, _, _, heq⟩ |
    ⟨_, r, _, hto, ⟨_, heq⟩ | ⟨f, hexit, heq⟩⟩⟩ := update_steps hc hd
  · rw [heq]
    exact .of_none rfl
  · have hwell₁ := hwell _ (hc.dag.qcRef_eq hfails.certified) hfails.undecided₁
    exact absurd hfails.decode (not_decodeFails hwell₁ f)
  · rw [heq]
    intro f hf
    exact ⟨_, (Option.some.inj hf).symm⟩
  · rw [heq]
    exact .of_none rfl
  · exfalso
    obtain ⟨x, hx⟩ := hto.committed.exit f hexit
    obtain hfut | ⟨input, hget, hnone, hd₂, hfut⟩ := hprep.futures
    · rw [hfut] at hx
      exact h.futures x f hx
    · by_cases hundec : c.decided (P.justify (P.justify nblk)) = true
      · -- nothing is decoded for a block that has been committed
        have hnone : (c.update P nblk).exit = none := by
          rw [hup]
          unfold updateHqc
          split
          · rw [Res.emit, Res.bind_none rfl]
            exact updateLock_decided (c := { c with hqc := (P.justify nblk, b.qc) })
              (hc.dag.qcRef_eq hd₂) hundec
          · rw [Res.ok, Res.bind_none rfl]
            exact updateLock_decided (hc.dag.qcRef_eq hd₂) hundec
        rw [heq] at hnone
        cases hnone
      · obtain ⟨cmds, hok⟩ := startsWell_ok
          (hwell _ (hc.dag.qcRef_eq hd₂) (by simpa using hundec)) hget
        rw [hfut, hok] at hx
        exact h.started x f hx

theorem onReceiveSlice_sturdy (h : c.Sturdy n) (s : Slice H) :
    (c.onReceiveSlice P s).core.Sturdy n := by
  obtain heq | heq | ⟨_, rc, sc, hok, heq⟩ := onReceiveSlice_eq (P := P) c s
  · rw [heq]
    exact h
  · rw [heq]
    exact h
  · rw [heq]
    exact ⟨h.futures, h.sized.inserted hok⟩

theorem onReceiveSlice_calm (h : c.Sturdy n) {s : Slice H} (hplaced : c.placed P s = true) :
    (c.onReceiveSlice P s).Calm := by
  unfold onReceiveSlice
  split
  · rename_i hvalid
    simp only [placed, hvalid, Bool.not_true, Bool.false_or, decide_eq_true_eq, h.sized.nodenum]
      at hplaced
    obtain ⟨rc, sc, hok⟩ := h.sized.insertShard hplaced s.mBlkHash s.mData
    unfold Slice.place at hok
    rw [hok]
    exact .of_none rfl
  · exact .of_none rfl

theorem castVote_sturdy (h : c.Sturdy n) (prop : Proposal H) : (c.castVote P prop).core.Sturdy n := by
  unfold castVote
  split
  · exact h
  · dsimp only
    split
    · exact h.of_eq rfl rfl
    · exact h

/-- `on_receive_proposal` leaves futures that return, and fails no assertion when its slice is
sound. -/
theorem onReceiveProposal_sturdy (hc : c.WellFormed P) (h : c.Sturdy n) {prop : Proposal H}
    (hdecodes : prop.proposer ≠ c.id →
      (c.onReceiveSlice P prop.slice).core.decodes P prop.blk = true) :
    (c.onReceiveProposal P prop).core.Sturdy n ∧
      (prop.sHash = P.hashSlice prop.slice → prop.slice.validate P.sha256Hex = true →
        c.placed P prop.slice = true → (c.onReceiveProposal P prop).Calm) := by
  have hslice := onReceiveSlice_sturdy (P := P) h prop.slice
  have hwf := onReceiveSlice_wellFormed hc prop.slice
  have hid : (c.onReceiveSlice P prop.slice).core.id = c.id :=
    (onReceiveSlice_sameBlocks c prop.slice).id
  have hcalm := onReceiveSlice_calm (P := P) h (s := prop.slice)
  unfold onReceiveProposal
  generalize c.onReceiveSlice P prop.slice = r at hslice hwf hid hcalm hdecodes
  have hmiddle : (if prop.proposer = r.core.id then Res.ok r.core
        else if r.core.delivered prop.blk then r.core.update P prop.blk
        else Res.fail r.core (.throw .blockNotDelivered)).core.Sturdy n ∧
      (if prop.proposer = r.core.id then Res.ok r.core
        else if r.core.delivered prop.blk then r.core.update P prop.blk
        else Res.fail r.core (.throw .blockNotDelivered)).Calm ∧
      (if prop.proposer = r.core.id then Res.ok r.core
        else if r.core.delivered prop.blk then r.core.update P prop.blk
        else Res.fail r.core (.throw .blockNotDelivered)).core.WellFormed P := by
    split
    · exact ⟨hslice, .of_none rfl, hwf⟩
    rename_i hother
    rw [hid] at hother
    split
    · rename_i hd
      obtain ⟨hsturdy, hupcalm⟩ := update_sturdy hwf hslice hd (hdecodes hother)
      exact ⟨hsturdy, hupcalm, update_wellFormed hwf hd⟩
    · exact ⟨hslice, fun f hf => ⟨_, (Option.some.inj hf).symm⟩, hwf⟩
  obtain ⟨hsturdy, hmcalm, hmwf⟩ := hmiddle
  split
  · refine ⟨bind_sturdy hslice (bind_sturdy hslice (bind_sturdy hsturdy (castVote_sturdy hsturdy _))),
      fun _ _ hplaced => ?_⟩
    apply (hcalm hplaced).bind
    apply Res.Calm.bind (.of_none rfl)
    exact hmcalm.bind (.of_none (castVote_exit hmwf prop).2)
  · rename_i hno
    exact ⟨h, fun hhash hvalid => absurd ⟨hhash, hvalid⟩ hno⟩

theorem onReceiveVote_sturdy (hc : c.WellFormed P) (h : c.Sturdy n) (vote : Vote H Sig) :
    (c.onReceiveVote vote).core.Sturdy n ∧ (c.onReceiveVote vote).Calm := by
  obtain heq | heq | ⟨c', hcounts, hres⟩ := onReceiveVote_cases hc vote
  · rw [heq]
    exact ⟨h, fun f hf => ⟨_, (Option.some.inj hf).symm⟩⟩
  · rw [heq]
    exact ⟨h, .of_none rfl⟩
  · have hsturdy : c'.Sturdy n := by
      rw [hcounts.rest]
      exact h.of_eq rfl rfl
    obtain heq | heq | ⟨_, _, _, heq, _⟩ := hres
    · rw [heq]
      exact ⟨hsturdy, fun f hf => ⟨_, (Option.some.inj hf).symm⟩⟩
    · rw [heq]
      exact ⟨hsturdy, .of_none rfl⟩
    · rw [heq]
      exact ⟨hsturdy.of_eq rfl rfl, .of_none rfl⟩

/-- `parents[0]` in `on_deliver_blk` is there. -/
def hasParent (c : Core H Sig) (blk : H) : Bool :=
  (c.storage blk).all fun b => b.delivered || !b.parentHashes.isEmpty

theorem onDeliverBlk_sturdy (hc : c.WellFormed P) (h : c.Sturdy n) {blk : H}
    (hd : Replica.deliverable P c blk = true) :
    (c.onDeliverBlk blk).core.Sturdy n ∧ (c.hasParent blk = true → (c.onDeliverBlk blk).Calm) := by
  have hquiet := (deliver_grows hc hd).1.quiet
  refine ⟨h.of_eq hquiet.futures hquiet.sc, fun hparent => .of_none ?_⟩
  unfold Replica.deliverable at hd
  unfold onDeliverBlk
  split
  · rename_i hnone
    simp [hnone] at hd
  rename_i b hb
  simp only [hb, Bool.and_eq_true] at hd
  simp only [hasParent, hb, Option.all_some, Bool.or_eq_true, Bool.not_eq_true',
    List.isEmpty_eq_false_iff] at hparent
  split
  · rfl
  rename_i hundelivered
  rw [if_pos hd.2]
  have hne := hparent.resolve_left hundelivered
  split
  · rename_i hhead
    exact absurd (List.head?_eq_none_iff.mp hhead) hne
  · rw [if_pos hd.1.2]
    rfl

theorem onPropose_sturdy (hc : c.WellFormed P) (h : c.Sturdy n) {cmds : List UInt256}
    {parents : List H} {extra : Bytes} (hpar : parents.all c.delivered = true)
    (hdecodes : (c.beforeOwnUpdate P cmds parents extra).decodes P
      (P.hashBlock (c.proposedData P cmds parents extra)) = true) :
    (c.onPropose P cmds parents extra).core.Sturdy n := by
  unfold beforeOwnUpdate at hdecodes
  generalize hbnew : P.hashBlock (c.proposedData P cmds parents extra) = bnew at hdecodes
  unfold onPropose
  split
  · exact h
  rename_i p₀ hp₀
  simp only [hp₀] at hdecodes
  dsimp only
  rw [hbnew]
  obtain ⟨hno, _⟩ | ⟨c₁, hok, hgrow, hd⟩ := storeProposed_delivers hc hp₀ hbnew rfl
  · rw [hpar] at hno
    cases hno
  rw [hok] at hdecodes ⊢
  have h₁ : c₁.Sturdy n := h.of_eq hgrow.quiet.futures hgrow.quiet.sc
  obtain ⟨hsturdy, _⟩ := update_sturdy hgrow.wellFormed h₁ hd hdecodes
  have hwf := update_wellFormed hgrow.wellFormed hd
  apply bind_sturdy h₁
  apply bind_sturdy hsturdy
  generalize (c₁.update P bnew).core = u at *
  obtain ⟨f, _, heq⟩ | ⟨props, prop, _, _, hid, _, _, heq⟩ := sendProposal_cases (P := P) u cmds bnew
  · rw [heq]
    exact hsturdy
  · have hrecv := (onReceiveProposal_sturdy hwf hsturdy fun hne => absurd hid hne).1
    rw [heq]
    exact bind_sturdy hrecv hrecv

end Core

namespace Replica

variable [DecidableEq H] {nd nd' : Replica H Sig} {n : Nat}

theorem absorb_halted {res : Res H Sig} (h : res.Calm) (ord : List H) (rest : List (Task H Sig)) :
    (nd.absorb ord rest res).halted = nd.halted := by
  unfold absorb
  dsimp only
  split
  · rfl
  · rfl
  · rename_i f hne hexit
    obtain ⟨e, he⟩ := h f hexit
    exact absurd he (hne e)

/-- The rest of a handler fails no assertion. -/
theorem runTask_sturdy (hc : nd.core.WellFormed P) (h : nd.core.Sturdy n) {ord : List H}
    {toSelf : Bool} (hrun : nd.runTask ord toSelf = some nd') :
    nd'.core.Sturdy n ∧ nd'.halted = nd.halted := by
  have hquiet (hrun : nd.runTask ord false = some nd') :
      nd'.core.Sturdy n ∧ nd'.halted = nd.halted := by
    rw [runTask_core hrun]
    refine ⟨h, ?_⟩
    unfold runTask at hrun
    split at hrun
    · cases hrun
    · split at hrun
      · rw [← Option.some.inj hrun]
      · rw [← Option.some.inj hrun]
    · rw [← Option.some.inj hrun]
    · rw [← Option.some.inj hrun]
    · rw [if_neg Bool.noConfusion] at hrun
      rw [← Option.some.inj hrun]
    · rw [← Option.some.inj hrun]
    · rw [← Option.some.inj hrun]
  cases toSelf with
  | false => exact hquiet hrun
  | true =>
    obtain hrun | ⟨last, vote, rest, _, rfl⟩ := runTask_self hrun
    · exact hquiet hrun
    · obtain ⟨hsturdy, hcalm⟩ := Core.onReceiveVote_sturdy hc h vote
      rw [absorb_core]
      exact ⟨hsturdy, absorb_halted hcalm _ _⟩

end Replica
end LibHotStuff
