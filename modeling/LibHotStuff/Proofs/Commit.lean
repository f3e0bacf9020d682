import LibHotStuff.Proofs.BlockDag
import Mathlib

namespace LibHotStuff

open Chain

section Logs

variable {H Sig : Type}

/-- The blocks given to `do_consensus`, in order. -/
def consensusLog (outs : List (Output H Sig)) : List H :=
  outs.filterMap fun
    | .doConsensus blk => some blk
    | _ => none

/-- The values given to `do_decide`, in order. -/
def decideLog (outs : List (Output H Sig)) : List (Finality H) :=
  outs.filterMap fun
    | .doDecide fin => some fin
    | _ => none

/-- The calls that a commit makes. -/
def Output.ofCommit : Output H Sig → Bool
  | doConsensus _ => true
  | doDecide _ => true
  | _ => false

@[simp] theorem consensusLog_append (o o' : List (Output H Sig)) :
    consensusLog (o ++ o') = consensusLog o ++ consensusLog o' := List.filterMap_append

@[simp] theorem decideLog_append (o o' : List (Output H Sig)) :
    decideLog (o ++ o') = decideLog o ++ decideLog o' := List.filterMap_append

end Logs

namespace Res

variable {H Sig : Type}

theorem bind_none {r : Res H Sig} {f : Core H Sig → Res H Sig} (h : r.exit = none) :
    r.bind f = ⟨(f r.core).core, r.outs ++ (f r.core).outs, r.tasks ++ (f r.core).tasks,
      (f r.core).exit⟩ := by
  simp [bind, h]

theorem bind_some {r : Res H Sig} {f : Core H Sig → Res H Sig} {e : Fault} (h : r.exit = some e) :
    r.bind f = r := by
  simp [bind, h]

theorem ok_bind (c : Core H Sig) (f : Core H Sig → Res H Sig) : (ok c).bind f = f c := by
  rw [bind_none rfl]
  rfl

theorem fail_bind (c : Core H Sig) (e : Fault) (f : Core H Sig → Res H Sig) :
    (fail c e).bind f = fail c e := rfl

/-- What both parts do to the state, the composition does. -/
theorem bind_core {R : Core H Sig → Core H Sig → Prop} (htrans : ∀ a b c, R a b → R b c → R a c)
    {c : Core H Sig} {r : Res H Sig} {f : Core H Sig → Res H Sig} (h : R c r.core)
    (hf : ∀ c, R c (f c).core) : R c (r.bind f).core := by
  cases he : r.exit with
  | none =>
    rw [bind_none he]
    exact htrans _ _ _ h (hf _)
  | some e => rwa [bind_some he]

end Res

section AsyncDecode

/-- A computation that fails outside a buffer only. -/
def OnlyUndefined {α : Type} (x : Except Fault α) : Prop := ∀ f, x = .error f → f = .undefined

namespace OnlyUndefined

variable {α β : Type}

theorem ok (a : α) : OnlyUndefined (.ok a) := by
  intro f h
  cases h

theorem undefined : OnlyUndefined (.error .undefined : Except Fault α) := by
  intro f h
  exact (Except.error.inj h).symm

theorem bind {x : Except Fault α} {g : α → Except Fault β} (hx : OnlyUndefined x)
    (hg : ∀ a, OnlyUndefined (g a)) : OnlyUndefined (x >>= g) := by
  cases x with
  | error f =>
    rw [hx f rfl]
    exact undefined
  | ok a => exact hg a

theorem mapM {g : α → Except Fault β} (hg : ∀ a, OnlyUndefined (g a)) (l : List α) :
    OnlyUndefined (l.mapM g) := by
  induction l with
  | nil => exact ok []
  | cons a l ih =>
    rw [List.mapM_cons]
    exact (hg a).bind fun b => ih.bind fun bs => ok (b :: bs)

end OnlyUndefined

namespace RSE

open OnlyUndefined

theorem readHeader_fault (buf : Bytes) : OnlyUndefined (readHeader buf) := by
  unfold readHeader
  split
  · exact undefined
  · exact ok _

theorem appendPresent_fault (input : List Bytes) (sl left i : Nat) (out : Bytes) :
    OnlyUndefined (appendPresent input sl left i out) := by
  induction left generalizing i out with
  | zero => exact ok _
  | succ left ih =>
    unfold appendPresent
    split
    · exact undefined
    · split
      · exact ok _
      · split
        · exact undefined
        · exact ih _ _

theorem appendRecovered_fault (input work : List Bytes) (sl left i : Nat) (out : Bytes) :
    OnlyUndefined (appendRecovered input work sl left i out) := by
  induction left generalizing i out with
  | zero => exact ok _
  | succ left ih =>
    unfold appendRecovered
    split
    · exact undefined
    · split
      · split
        · exact undefined
        · split
          · exact undefined
          · exact ih _ _
      · split
        · exact undefined
        · exact ih _ _

theorem cutOutput_fault (dataBytes : Nat) (out : Bytes) :
    OnlyUndefined (cutOutput dataBytes out) := by
  unfold cutOutput
  split
  · exact undefined
  · split
    · exact undefined
    · exact ok _

theorem loadBuffer_fault (input : List Bytes) (b i : Nat) :
    OnlyUndefined (loadBuffer input b i) := by
  unfold loadBuffer
  split
  · exact undefined
  · split
    · exact ok _
    · split
      · exact undefined
      · exact ok _

theorem recover_fault (leo : Leopard) (r : RSE) (input : List Bytes) (b lost : Nat)
    (header : Option (Nat × Nat)) (out : Bytes) :
    OnlyUndefined (recover leo r input b lost header out) := by
  unfold recover
  dsimp only
  split
  · exact ok _
  refine (mapM (loadBuffer_fault _ _) _).bind fun original => ?_
  refine (mapM (fun i => loadBuffer_fault _ _ _) _).bind fun recovery => ?_
  split
  · exact ok _
  split
  · refine (ok _).bind fun hs => (appendRecovered_fault _ _ _ _ _ _).bind fun out => ?_
    exact (cutOutput_fault _ _).bind fun out => ok _
  · refine (readHeader_fault _).bind fun hs => (appendRecovered_fault _ _ _ _ _ _).bind fun out => ?_
    exact (cutOutput_fault _ _).bind fun out => ok _

/-- A call of `decode` that does not return runs outside a buffer. -/
theorem decode_fault (leo : Leopard) (r : RSE) (input : List Bytes) :
    OnlyUndefined (r.decode leo input) := by
  unfold decode
  dsimp only
  split
  · exact ok _
  split
  · exact recover_fault _ _ _ _ _ _ _
  refine (readHeader_fault _).bind fun hs => ?_
  refine (appendPresent_fault _ _ _ _ _).bind fun lost => ?_
  split
  · exact (cutOutput_fault _ _).bind fun out => ok _
  · exact recover_fault _ _ _ _ _ _ _

theorem encode_fault (leo : Leopard) (r : RSE) (input : Bytes) :
    OnlyUndefined (r.encode leo input) := by
  unfold encode
  dsimp only
  split
  · exact undefined
  split
  · exact undefined
  split
  · exact ok _
  split
  · exact ok _
  split
  · exact undefined
  · exact ok _

end RSE

/-- A decoding never ends in an exception. -/
theorem asyncDecode_ne_throw (leo : Leopard) (r : RSE) (input : List Bytes) (e : Error) :
    asyncDecode leo r input ≠ .error (.throw e) := by
  intro h
  unfold asyncDecode at h
  split at h
  · rename_i f hf
    rw [RSE.decode_fault leo r input f hf] at h
    cases h
  · split at h
    · cases h
    · split at h
      · cases h
      · cases h

end AsyncDecode

section CommitLoop

variable {H Sig : Type}

/-- The values that `do_decide` is given for one block. -/
def Core.finalities (c : Core H Sig) (blk : H) (cmds : List UInt256) : List (Finality H) :=
  cmds.mapIdx fun i cmd =>
    { rid := c.id, decision := 1, cmdIdx := i, cmdHeight := c.height blk, cmdHash := cmd,
      blkHash := blk }

/-- The commands that wait for the commit of a block. -/
def Core.pending (c : Core H Sig) (blk : H) : List UInt256 :=
  match c.futures blk with
  | some (.ok cmds) => cmds
  | _ => []

/-- The state but for the blocks, the futures and the shards is the same. -/
structure Core.SameState (c c' : Core H Sig) : Prop where
  id : c'.id = c.id
  hqc : c'.hqc = c.hqc
  bLock : c'.bLock = c.bLock
  bExec : c'.bExec = c.bExec
  vheight : c'.vheight = c.vheight
  tails : c'.tails = c.tails
  config : c'.config = c.config
  voteDisabled : c'.voteDisabled = c.voteDisabled
  rse : c'.rse = c.rse

theorem Core.SameState.refl (c : Core H Sig) : c.SameState c :=
  ⟨rfl, rfl, rfl, rfl, rfl, rfl, rfl, rfl, rfl⟩

theorem Core.SameState.trans {c c' c'' : Core H Sig} (h : c.SameState c') (h' : c'.SameState c'') :
    c.SameState c'' :=
  ⟨h'.id.trans h.id, h'.hqc.trans h.hqc, h'.bLock.trans h.bLock, h'.bExec.trans h.bExec,
    h'.vheight.trans h.vheight, h'.tails.trans h.tails, h'.config.trans h.config,
    h'.voteDisabled.trans h.voteDisabled, h'.rse.trans h.rse⟩

/-- What the commit loop leaves after a queue of blocks: it has gone through a first part
`done` of the queue, and through all of it when it returned. -/
structure Core.Committed (c : Core H Sig) (queue : List H) (r : Res H Sig) (done : List H) :
    Prop where
  sameDag : c.SameDag r.core
  same : c.SameState r.core
  votes : ∀ h, (r.core.storage h).map (fun b => (b.selfQc, b.voted)) =
    (c.storage h).map fun b => (b.selfQc, b.voted)
  queueDone : done <+: queue
  returned : r.exit = none → done = queue
  exit : ∀ f, r.exit = some f → ∃ blk, c.futures blk = some (.error f)
  decoded : r.exit = none → queue.Nodup → ∀ b ∈ queue, ∀ f, c.futures b ≠ some (.error f)
  tasks : r.tasks = []
  outs : r.outs.all Output.ofCommit = true
  log : consensusLog r.outs = done
  decides : queue.Nodup → decideLog r.outs = done.flatMap fun b => c.finalities b (c.pending b)
  decided : ∀ h, r.core.decided h = true ↔
    c.decided h = true ∨ h ∈ done ∧ (c.storage h).isSome
  futures : ∀ h, r.core.futures h = c.futures h ∨ h ∈ done ∧ r.core.futures h = none
  shards : ∀ h, r.core.sc.shards h = c.sc.shards h ∨ h ∈ done ∧ r.core.sc.shards h = none
  released : ∀ h ∈ done, ∀ cmds, c.futures h = some (.ok cmds) →
    r.core.futures h = none ∧ r.core.sc.shards h = none
  counts : r.core.sc.threshold = c.sc.threshold ∧ r.core.sc.nodenum = c.sc.nodenum

/-- The blocks `done` have been decided, and nothing else of the blocks has changed. -/
structure Core.Sweeps (c c' : Core H Sig) (done : List H) : Prop where
  sameDag : c.SameDag c'
  same : c.SameState c'
  votes : ∀ h, (c'.storage h).map (fun b => (b.selfQc, b.voted)) =
    (c.storage h).map fun b => (b.selfQc, b.voted)
  decided : ∀ h, c'.decided h = true ↔ c.decided h = true ∨ h ∈ done ∧ (c.storage h).isSome
  futures : ∀ h, c'.futures h = c.futures h ∨ h ∈ done ∧ c'.futures h = none

theorem Core.Sweeps.refl (c : Core H Sig) : c.Sweeps c [] where
  sameDag := .refl c
  same := .refl c
  votes _ := rfl
  decided _ := by simp
  futures _ := Or.inl rfl

theorem Core.Sweeps.trans {c c' c'' : Core H Sig} {done done' : List H} (h : c.Sweeps c' done)
    (h' : c'.Sweeps c'' done') : c.Sweeps c'' (done ++ done') where
  sameDag := h.sameDag.trans h'.sameDag
  same := h.same.trans h'.same
  votes x := (h'.votes x).trans (h.votes x)
  decided x := by
    have hst : (c'.storage x).isSome = (c.storage x).isSome := by
      have := congrArg Option.isSome (h.votes x)
      simpa using this
    rw [h'.decided x, h.decided x, List.mem_append, hst]
    tauto
  futures x := by
    obtain heq' | ⟨hx, hn⟩ := h'.futures x
    · obtain heq | ⟨hx, hn⟩ := h.futures x
      · exact Or.inl (heq'.trans heq)
      · exact Or.inr ⟨List.mem_append_left _ hx, heq'.trans hn⟩
    · exact Or.inr ⟨List.mem_append_right _ hx, hn⟩

theorem Core.Committed.sweeps {c : Core H Sig} {queue done : List H} {r : Res H Sig}
    (h : c.Committed queue r done) : c.Sweeps r.core done :=
  ⟨h.sameDag, h.same, h.votes, h.decided, h.futures⟩

namespace Core

theorem decisions_eq (c : Core H Sig) (blk : H) (cmds : List UInt256) :
    c.decisions blk cmds = (c.finalities blk cmds).map .doDecide := by
  refine List.ext_getElem? fun i => ?_
  rw [decisions, finalities, List.getElem?_map, List.getElem?_mapIdx, List.getElem?_mapIdx,
    Option.map_map]
  rfl

theorem consensusLog_decisions (c : Core H Sig) (blk : H) (cmds : List UInt256) :
    consensusLog (c.decisions blk cmds) = [] := by
  rw [decisions_eq, consensusLog, List.filterMap_map]
  exact List.filterMap_eq_nil_iff.mpr fun _ _ => rfl

theorem decideLog_decisions (c : Core H Sig) (blk : H) (cmds : List UInt256) :
    decideLog (c.decisions blk cmds) = c.finalities blk cmds := by
  rw [decisions_eq, decideLog, List.filterMap_map]
  exact List.filterMap_some

theorem decisions_ofCommit (c : Core H Sig) (blk : H) (cmds : List UInt256) :
    (c.decisions blk cmds).all Output.ofCommit = true := by
  rw [decisions_eq, List.all_map]
  exact List.all_eq_true.mpr fun _ _ => rfl

theorem finalities_congr {c c' : Core H Sig} (hs : c.SameDag c') (hid : c'.id = c.id) (blk : H)
    (cmds : List UInt256) : c'.finalities blk cmds = c.finalities blk cmds := by
  rw [finalities, finalities, hid, hs.height]

/-- Several blocks in a row: what is left of the queue starts where the first part ended. -/
theorem Committed.append {c : Core H Sig} {b : H} {queue done : List H} {r r' : Res H Sig}
    (h : c.Committed [b] r [b]) (he : r.exit = none) (h' : r.core.Committed queue r' done) :
    c.Committed (b :: queue) ⟨r'.core, r.outs ++ r'.outs, r.tasks ++ r'.tasks, r'.exit⟩
      (b :: done) where
  sameDag := (h.sweeps.trans h'.sweeps).sameDag
  same := (h.sweeps.trans h'.sweeps).same
  votes := (h.sweeps.trans h'.sweeps).votes
  queueDone := List.cons_prefix_cons.mpr ⟨rfl, h'.queueDone⟩
  returned he := by rw [h'.returned he]
  exit f hf := by
    obtain ⟨x, hx⟩ := h'.exit f hf
    rcases h.futures x with heq | ⟨_, hnone⟩
    · exact ⟨x, by rw [← heq, hx]⟩
    · rw [hnone] at hx
      cases hx
  decoded he' hnd x hx f := by
    obtain ⟨hb, hnd'⟩ := List.nodup_cons.mp hnd
    obtain rfl | hx := List.mem_cons.mp hx
    · exact h.decoded he (List.nodup_singleton x) x (List.mem_singleton_self x) f
    · obtain heq | ⟨hxb, _⟩ := h.futures x
      · rw [← heq]
        exact h'.decoded he' hnd' x hx f
      · rw [List.mem_singleton.mp hxb] at hx
        exact absurd hx hb
  tasks := by rw [h.tasks, h'.tasks]; rfl
  outs := by rw [List.all_append, h.outs, h'.outs]; rfl
  log := by rw [consensusLog_append, h.log, h'.log]; rfl
  decides hnd := by
    obtain ⟨hb, hnd'⟩ := List.nodup_cons.mp hnd
    rw [decideLog_append, h.decides (List.nodup_singleton b), h'.decides hnd']
    have hsame : ∀ x ∈ done, r.core.finalities x (r.core.pending x) =
        c.finalities x (c.pending x) := by
      intro x hx
      have hxb : x ∉ [b] := by
        rw [List.mem_singleton]
        rintro rfl
        exact hb (h'.queueDone.subset hx)
      have hfut : r.core.futures x = c.futures x := (h.futures x).resolve_right fun hn => hxb hn.1
      rw [finalities_congr h.sameDag h.same.id, pending, pending, hfut]
    rw [List.flatMap_congr hsame]
    simp
  decided := (h.sweeps.trans h'.sweeps).decided
  futures := (h.sweeps.trans h'.sweeps).futures
  shards x := by
    rcases h'.shards x with heq | ⟨hx, hn⟩
    · rcases h.shards x with heq' | ⟨hx, hn⟩
      · exact Or.inl (heq.trans heq')
      · exact Or.inr ⟨List.mem_cons.mpr (Or.inl (List.mem_singleton.mp hx)), heq.trans hn⟩
    · exact Or.inr ⟨List.mem_cons_of_mem _ hx, hn⟩
  released x hx cmds hok := by
    have gone (hf : r.core.futures x = none ∧ r.core.sc.shards x = none) :
        r'.core.futures x = none ∧ r'.core.sc.shards x = none := by
      constructor
      · obtain heq | ⟨_, hn⟩ := h'.futures x
        · rw [heq, hf.1]
        · exact hn
      · obtain heq | ⟨_, hn⟩ := h'.shards x
        · rw [heq, hf.2]
        · exact hn
    by_cases hxb : x ∈ [b]
    · exact gone (h.released x hxb cmds hok)
    · have hfut : r.core.futures x = c.futures x := (h.futures x).resolve_right fun hn => hxb hn.1
      obtain rfl | hx := List.mem_cons.mp hx
      · exact absurd (List.mem_singleton_self x) hxb
      · exact h'.released x hx cmds (hfut.trans hok)
  counts := ⟨h'.counts.1.trans h.counts.1, h'.counts.2.trans h.counts.2⟩

theorem pending_ok {c : Core H Sig} {b : H} {cmds : List UInt256}
    (h : c.futures b = some (.ok cmds)) : c.pending b = cmds := by
  rw [pending, h]

theorem pending_nil {c : Core H Sig} {b : H} (h : ∀ cmds, c.futures b ≠ some (.ok cmds)) :
    c.pending b = [] := by
  rw [pending]
  split
  · rename_i cmds he
    exact absurd he (h cmds)
  · rfl

section Loop

variable [DecidableEq H]

theorem decide_storage (c : Core H Sig) (b x : H) :
    (c.modify b fun b => { b with decision := true }).storage x =
      if x = b then (c.storage x).map fun b => { b with decision := true } else c.storage x := by
  by_cases hx : x = b
  · subst hx
    simp [modify]
  · simp [modify, hx]

theorem decide_sameDag (c : Core H Sig) (b : H) :
    c.SameDag (c.modify b fun b => { b with decision := true }) := SameDag.modify fun _ => rfl

theorem Sweeps.single (c : Core H Sig) (b : H) (sc : ShardsContainer H)
    {f : H → Option (Except Fault (List UInt256))} (hf : ∀ x, f x = c.futures x ∨ x ∈ [b] ∧ f x = none) :
    c.Sweeps { c.modify b (fun b => { b with decision := true }) with futures := f, sc := sc } [b] where
  sameDag := (decide_sameDag c b).trans (.of_storage rfl rfl)
  same := ⟨rfl, rfl, rfl, rfl, rfl, rfl, rfl, rfl, rfl⟩
  votes x := by
    change ((c.modify b _).storage x).map _ = _
    rw [decide_storage]
    split
    · rw [Option.map_map]
      rfl
    · rfl
  decided x := by
    change ((((c.modify b _).storage x).map _).getD false) = true ↔ _
    rw [decide_storage, Core.decided, List.mem_singleton]
    split
    · cases c.storage x <;> simp [*]
    · simp [*]
  futures := hf

/-- The first writes of a turn, with what may follow. -/
theorem Committed.single (c : Core H Sig) (b : H) {outs : List (Output H Sig)}
    {exit : Option Fault} {f : H → Option (Except Fault (List UInt256))} {sc : ShardsContainer H}
    (hexit : ∀ f, exit = some f → ∃ blk, c.futures blk = some (.error f))
    (hdecoded : exit = none → ∀ f, c.futures b ≠ some (.error f))
    (houts : outs.all Output.ofCommit = true) (hlog : consensusLog outs = [b])
    (hdecs : decideLog outs = c.finalities b (c.pending b))
    (hf : ∀ x, f x = c.futures x ∨ x ∈ [b] ∧ f x = none)
    (hsc : ∀ x, sc.shards x = c.sc.shards x ∨ x ∈ [b] ∧ sc.shards x = none)
    (hreleased : ∀ cmds, c.futures b = some (.ok cmds) → f b = none ∧ sc.shards b = none)
    (hcounts : sc.threshold = c.sc.threshold ∧ sc.nodenum = c.sc.nodenum) :
    c.Committed [b] ⟨{ c.modify b (fun b => { b with decision := true }) with
      futures := f, sc := sc }, outs, [], exit⟩ [b] :=
  have hsweeps := Sweeps.single c b sc hf
  { hsweeps with
    queueDone := List.prefix_refl _
    returned := fun _ => rfl
    exit := hexit
    decoded := by
      intro he _ x hx
      rw [List.mem_singleton.mp hx]
      exact hdecoded he
    tasks := rfl
    outs := houts
    log := hlog
    decides := by
      intro _
      simpa using hdecs
    shards := hsc
    released := by
      intro x hx
      rw [List.mem_singleton.mp hx]
      exact hreleased
    counts := hcounts }

/-- One turn of the commit loop. -/
theorem commitBlk_committed (c : Core H Sig) (b : H) : c.Committed [b] (c.commitBlk b) [b] := by
  have hturn (o : Option (Except Fault (List UInt256))) (he : c.futures b = o) :
      (c.modify b fun b => { b with decision := true }).futures b = o := he
  cases he : c.futures b with
  | none =>
    simp only [commitBlk, hturn _ he]
    refine Committed.single c b (fun f hf => by cases hf) (by simp [he]) rfl rfl ?_
      (fun _ => Or.inl rfl) (fun _ => Or.inl rfl) (by simp [he]) ⟨rfl, rfl⟩
    rw [pending_nil (by simp [he])]
    rfl
  | some x =>
    cases x with
    | error f =>
      simp only [commitBlk, hturn _ he]
      refine Committed.single c b (fun f' hf => ⟨b, ?_⟩) (fun hf => by cases hf) rfl rfl ?_
        (fun _ => Or.inl rfl) (fun _ => Or.inl rfl) (by simp [he]) ⟨rfl, rfl⟩
      · rw [he, Option.some.inj hf]
      · rw [pending_nil (by simp [he])]
        rfl
    | ok cmds =>
      simp only [commitBlk, hturn _ he]
      refine Committed.single c b (fun f hf => by cases hf) (by simp [he]) ?_ ?_ ?_ (fun x => ?_)
        (fun x => ?_) (fun _ _ => by simp [ShardsContainer.remove]) ⟨rfl, rfl⟩
      · exact decisions_ofCommit _ b cmds
      · exact congrArg (b :: ·) (consensusLog_decisions _ b cmds)
      · rw [pending_ok he, ← finalities_congr (decide_sameDag c b) rfl]
        exact decideLog_decisions _ b cmds
      · by_cases hx : x = b
        · subst hx
          exact Or.inr ⟨List.mem_singleton_self x, by simp⟩
        · exact Or.inl (Function.update_of_ne hx _ _)
      · by_cases hx : x = b
        · subst hx
          exact Or.inr ⟨List.mem_singleton_self x, by simp [ShardsContainer.remove]⟩
        · exact Or.inl (Function.update_of_ne hx _ _)

/-- The commit loop over a queue. -/
theorem commitAll_committed (c : Core H Sig) (queue : List H) :
    ∃ done, c.Committed queue (c.commitAll queue) done := by
  induction queue generalizing c with
  | nil =>
    refine ⟨[], ?_⟩
    exact { sameDag := .refl c, same := .refl c, votes := fun _ => rfl
            queueDone := List.prefix_refl _, returned := fun _ => rfl
            exit := fun f hf => by cases hf
            decoded := fun _ _ _ hx => by cases hx
            tasks := rfl, outs := rfl, log := rfl, decides := fun _ => rfl
            decided := fun x => by simp [commitAll, Res.ok]
            futures := fun _ => Or.inl rfl, shards := fun _ => Or.inl rfl
            released := fun _ hx => by cases hx
            counts := ⟨rfl, rfl⟩ }
  | cons b queue ih =>
    have hb := commitBlk_committed c b
    rw [commitAll]
    cases he : (c.commitBlk b).exit with
    | none =>
      obtain ⟨done, hd⟩ := ih (c.commitBlk b).core
      rw [Res.bind_none he]
      exact ⟨b :: done, hb.append he hd⟩
    | some f =>
      rw [Res.bind_some he]
      have hne (hn : (c.commitBlk b).exit = none) : False := by
        rw [hn] at he
        cases he
      refine ⟨[b], { hb with queueDone := ?_, returned := ?_, decoded := ?_, decides := ?_ }⟩
      · exact List.cons_prefix_cons.mpr ⟨rfl, List.nil_prefix⟩
      · exact fun hn => (hne hn).elim
      · exact fun hn => (hne hn).elim
      · intro _
        exact hb.decides (List.nodup_singleton b)

end Loop

end Core

end CommitLoop
end LibHotStuff
