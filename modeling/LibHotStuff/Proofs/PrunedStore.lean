import LibHotStuff.Model.Pruning
import LibHotStuff.Proofs.Calls

/-! The storage of a core of which blocks have been pruned, beside the storage without pruning. -/

namespace LibHotStuff

open Chain

variable {H Sig : Type} {P : Primitives H Sig}

/-- What `prune` leaves of a block, or what has been fetched again after its release. -/
structure Block.Remains (b' b : Block H Sig) : Prop where
  data : b'.toBlockData = b.toBlockData
  delivered : b.delivered = true
  height : b'.delivered = true → b'.height = b.height
  edges : b'.qcRef = none ∨ b'.qcRef = b.qcRef ∧ b'.parents = b.parents

theorem Block.dag_fields {b' b : Block H Sig} (h : b'.dag = b.dag) :
    b'.toBlockData = b.toBlockData ∧ b'.parents = b.parents ∧ b'.qcRef = b.qcRef ∧
      b'.height = b.height ∧ b'.delivered = b.delivered := by
  cases b'
  cases b
  simp only [Block.dag, Block.mk.injEq] at h
  exact ⟨h.1, h.2.1, h.2.2.1, h.2.2.2.2.1, h.2.2.2.2.2.1⟩

/-- Decisions and votes do not count. -/
theorem Block.Remains.of_dag {b' b c' c : Block H Sig} (h : b'.Remains b) (hc' : c'.dag = b'.dag)
    (hc : c.dag = b.dag) : c'.Remains c := by
  obtain ⟨hdata', hpar', hqc', hheight', hdel'⟩ := Block.dag_fields hc'
  obtain ⟨hdata, hpar, hqc, hheight, hdel⟩ := Block.dag_fields hc
  refine ⟨?_, ?_, ?_, ?_⟩
  · rw [hdata', hdata, h.data]
  · rw [hdel, h.delivered]
  · rw [hdel', hheight', hheight]
    exact h.height
  · rw [hqc', hqc, hpar', hpar]
    exact h.edges

/-- An entry of the storage of the pruned core beside that of the other. -/
inductive Tracked : Option (Block H Sig) → Option (Block H Sig) → Prop
  | same (o : Option (Block H Sig)) : Tracked o o
  | released {b : Block H Sig} : b.delivered = true → Tracked none (some b)
  | remains {b' b : Block H Sig} : b'.Remains b → Tracked (some b') (some b)

namespace Core

variable {c p u p' u' : Core H Sig} {h nblk : H} {b b' : Block H Sig}

/-- The storage of a core refers to what is there only. -/
structure Closed (c : Core H Sig) : Prop where
  parents : ∀ {h b}, c.storage h = some b → ∀ y ∈ b.parents, c.delivered y = true
  qcRef : ∀ {h b q}, c.storage h = some b → b.qcRef = some q → (c.storage q).isSome
  b0 : c.delivered c.b0 = true
  hqc : c.delivered c.hqc.1 = true
  bLock : c.delivered c.bLock = true
  bExec : c.delivered c.bExec = true
  selfQc : ∀ {h b qc}, c.storage h = some b → b.selfQc = some qc → qc.objHash = h

/-- A core without its blocks. -/
def rest (c : Core H Sig) : Core H Sig := { c with storage := fun _ => none, tails := [] }

/-- The pruned core `p` is like `u` but for what has been pruned. -/
structure Tracks (p u : Core H Sig) : Prop extends Closed p where
  rest : p.rest = u.rest
  blocks : ∀ h, Tracked (p.storage h) (u.storage h)

namespace Tracks

theorem b0_eq (t : p.Tracks u) : p.b0 = u.b0 := by
  have h := congrArg Core.b0 t.rest
  exact h

theorem hqc_eq (t : p.Tracks u) : p.hqc = u.hqc := by
  have h := congrArg Core.hqc t.rest
  exact h

theorem bLock_eq (t : p.Tracks u) : p.bLock = u.bLock := by
  have h := congrArg Core.bLock t.rest
  exact h

theorem bExec_eq (t : p.Tracks u) : p.bExec = u.bExec := by
  have h := congrArg Core.bExec t.rest
  exact h

theorem vheight_eq (t : p.Tracks u) : p.vheight = u.vheight := by
  have h := congrArg Core.vheight t.rest
  exact h

theorem config_eq (t : p.Tracks u) : p.config = u.config := by
  have h := congrArg Core.config t.rest
  exact h

theorem id_eq (t : p.Tracks u) : p.id = u.id := by
  have h := congrArg Core.id t.rest
  exact h

theorem sc_eq (t : p.Tracks u) : p.sc = u.sc := by
  have h := congrArg Core.sc t.rest
  exact h

theorem futures_eq (t : p.Tracks u) : p.futures = u.futures := by
  have h := congrArg Core.futures t.rest
  exact h

theorem rse_eq (t : p.Tracks u) : p.rse = u.rse := by
  have h := congrArg Core.rse t.rest
  exact h

theorem voteDisabled_eq (t : p.Tracks u) : p.voteDisabled = u.voteDisabled := by
  have h := congrArg Core.voteDisabled t.rest
  exact h

/-- A block of the pruned core is the same in the other, or what remains of it. -/
theorem stored (t : p.Tracks u) (hb' : p.storage h = some b') :
    u.storage h = some b' ∨ ∃ b, u.storage h = some b ∧ b'.Remains b := by
  have hblk := t.blocks h
  rw [hb'] at hblk
  generalize hu : u.storage h = o at hblk
  cases hblk with
  | same => exact Or.inl rfl
  | remains hrem => exact Or.inr ⟨_, rfl, hrem⟩

theorem undelivered (t : p.Tracks u) (hd : u.delivered h = false) :
    p.storage h = u.storage h := by
  have hblk := t.blocks h
  rw [delivered] at hd
  generalize p.storage h = o', u.storage h = o at hblk hd
  cases hblk with
  | same => rfl
  | released hdel => simp [hdel] at hd
  | remains hrem => simp [hrem.delivered] at hd

theorem isSome (t : p.Tracks u) (hs : (p.storage h).isSome) : (u.storage h).isSome := by
  obtain ⟨b', hb'⟩ := Option.isSome_iff_exists.mp hs
  obtain hb | ⟨b, hb, _⟩ := t.stored hb'
  · rw [hb]
    rfl
  · rw [hb]
    rfl

theorem delivered (t : p.Tracks u) (hd : p.delivered h = true) : u.delivered h = true := by
  obtain ⟨b', hb', hd'⟩ := stored_of_delivered hd
  obtain hb | ⟨b, hb, hrem⟩ := t.stored hb'
  · rw [delivered_of hb, hd']
  · rw [delivered_of hb, hrem.delivered]

theorem height (t : p.Tracks u) (hd : p.delivered h = true) : p.height h = u.height h := by
  obtain ⟨b', hb', hd'⟩ := stored_of_delivered hd
  rw [height_of hb']
  obtain hb | ⟨b, hb, hrem⟩ := t.stored hb'
  · rw [height_of hb]
  · rw [height_of hb, hrem.height hd']

/-- A block that is delivered in both cores or in none has the same height in both. -/
theorem height_of_known (t : p.Tracks u) (hk : p.delivered h = u.delivered h) :
    p.height h = u.height h := by
  cases hd : u.delivered h with
  | true => exact t.height (hk.trans hd)
  | false => rw [Core.height, Core.height, t.undelivered hd]

/-- The edges of a block are those of the other core unless the block has been cleared. -/
theorem edges (t : p.Tracks u) {q : H} (hq : p.qcRef h = some q) :
    u.qcRef h = some q ∧ p.parent0 h = u.parent0 h := by
  rw [qcRef] at hq
  obtain ⟨b', hb', hq'⟩ := Option.bind_eq_some_iff.mp hq
  rw [parent0_of hb']
  obtain hb | ⟨b, hb, hrem⟩ := t.stored hb'
  · exact ⟨by rw [qcRef_of hb, hq'], by rw [parent0_of hb]⟩
  · obtain hnone | ⟨heq, hpar⟩ := hrem.edges
    · rw [hnone] at hq'
      cases hq'
    · exact ⟨by rw [qcRef_of hb, ← heq, hq'], by rw [parent0_of hb, hpar]⟩

theorem delivered_parent0 (t : p.Tracks u) {y : H} (hy : p.parent0 h = some y) :
    p.delivered y = true := by
  rw [parent0] at hy
  obtain ⟨b', hb', hhead⟩ := Option.bind_eq_some_iff.mp hy
  exact t.parents hb' y (List.mem_of_mem_head? hhead)

/-- The data of a block are the same. -/
theorem qc_eq (t : p.Tracks u) (hb' : p.storage h = some b') (hb : u.storage h = some b) :
    b'.toBlockData = b.toBlockData := by
  obtain hsame | ⟨b₀, hb₀, hrem⟩ := t.stored hb'
  · rw [hb] at hsame
    rw [Option.some.inj hsame]
  · rw [hb] at hb₀
    rw [Option.some.inj hb₀, hrem.data]

/-- A step that writes no block in either core. -/
theorem of_storage (t : p.Tracks u) (hp : p'.storage = p.storage) (hu : u'.storage = u.storage)
    (hrest : p'.rest = u'.rest) (hb0 : p'.b0 = p.b0)
    (hhqc : p'.hqc.1 = p.hqc.1 ∨ p.delivered p'.hqc.1 = true)
    (hlock : p'.bLock = p.bLock ∨ p.delivered p'.bLock = true)
    (hexec : p'.bExec = p.bExec ∨ p.delivered p'.bExec = true) : p'.Tracks u' := by
  have hdel (x : H) : p'.delivered x = p.delivered x := by rw [Core.delivered, Core.delivered, hp]
  refine ⟨⟨fun hb y hy => ?_, fun hb hq => ?_, ?_, ?_, ?_, ?_, fun hb => ?_⟩, hrest, fun h => ?_⟩
  · rw [hp] at hb
    rw [hdel, t.parents hb y hy]
  · rw [hp] at hb ⊢
    exact t.qcRef hb hq
  · rw [hdel, hb0, t.b0]
  · rw [hdel]
    obtain heq | hd := hhqc
    · rw [heq, t.hqc]
    · exact hd
  · rw [hdel]
    obtain heq | hd := hlock
    · rw [heq, t.bLock]
    · exact hd
  · rw [hdel]
    obtain heq | hd := hexec
    · rw [heq, t.bExec]
    · exact hd
  · rw [hp] at hb
    exact t.selfQc hb
  · rw [hp, hu]
    exact t.blocks h

/-- A step that writes one block in one or both of the cores. -/
theorem of_block (t : p.Tracks u) (x : H) (hp : ∀ y, y ≠ x → p'.storage y = p.storage y)
    (hu : ∀ y, y ≠ x → u'.storage y = u.storage y)
    (hrest : p'.rest = u'.rest)
    (hb0 : p'.b0 = p.b0) (hhqc : p'.hqc = p.hqc) (hlock : p'.bLock = p.bLock) (hexec : p'.bExec = p.bExec)
    (hx : Tracked (p'.storage x) (u'.storage x))
    (hstored : (p.storage x).isSome → (p'.storage x).isSome)
    (hdel : p.delivered x = true → p'.delivered x = true)
    (hpar : ∀ b, p'.storage x = some b → ∀ y ∈ b.parents, p.delivered y = true)
    (hqc : ∀ b q, p'.storage x = some b → b.qcRef = some q → (p.storage q).isSome)
    (hself : ∀ b qc, p'.storage x = some b → b.selfQc = some qc → qc.objHash = x) :
    p'.Tracks u' := by
  have hsome (y : H) (hy : (p.storage y).isSome) : (p'.storage y).isSome := by
    by_cases hyx : y = x
    · rw [hyx] at hy ⊢
      exact hstored hy
    · rwa [hp y hyx]
  have hd (y : H) (hy : p.delivered y = true) : p'.delivered y = true := by
    by_cases hyx : y = x
    · rw [hyx] at hy ⊢
      exact hdel hy
    · rw [Core.delivered, hp y hyx]
      exact hy
  refine ⟨⟨fun {h b} hb y hy => ?_, fun {h b q} hb hq => ?_, ?_, ?_, ?_, ?_,
    fun {h b qc} hb hq => ?_⟩, hrest, fun h => ?_⟩
  · by_cases hh : h = x
    · rw [hh] at hb
      exact hd y (hpar b hb y hy)
    · rw [hp h hh] at hb
      exact hd y (t.parents hb y hy)
  · by_cases hh : h = x
    · rw [hh] at hb
      exact hsome q (hqc b q hb hq)
    · rw [hp h hh] at hb
      exact hsome q (t.qcRef hb hq)
  · rw [hb0]
    exact hd _ t.b0
  · rw [hhqc]
    exact hd _ t.hqc
  · rw [hlock]
    exact hd _ t.bLock
  · rw [hexec]
    exact hd _ t.bExec
  · by_cases hh : h = x
    · rw [hh] at hb ⊢
      exact hself b qc hb hq
    · rw [hp h hh] at hb
      exact t.selfQc hb hq
  · by_cases hh : h = x
    · rw [hh]
      exact hx
    · rw [hp h hh, hu h hh]
      exact t.blocks h

end Tracks

/-- A call has run in the same way on both cores. -/
structure Alike (r' r : Res H Sig) : Prop where
  tracks : r'.core.Tracks r.core
  outs : r'.outs = r.outs
  votes : r'.tasks.filterMap Task.vote? = r.tasks.filterMap Task.vote?
  exit : r'.exit = r.exit

theorem Alike.emitted {r' r : Res H Sig} (h : Alike r' r) : r'.emitted = r.emitted := by
  rw [Res.emitted, Res.emitted, h.outs, h.votes, h.exit]

theorem Alike.bind {r' r : Res H Sig} {k' k : Core H Sig → Res H Sig} (h : Alike r' r)
    (hk : r.exit = none → Alike (k' r'.core) (k r.core)) : Alike (r'.bind k') (r.bind k) := by
  cases he : r.exit with
  | some f =>
    rw [Res.bind_some he, Res.bind_some (h.exit.trans he)]
    exact h
  | none =>
    have hnext := hk he
    rw [Res.bind_none he, Res.bind_none (h.exit.trans he)]
    refine ⟨hnext.tracks, ?_, ?_, hnext.exit⟩
    · dsimp only
      rw [h.outs, hnext.outs]
    · dsimp only
      rw [List.filterMap_append, List.filterMap_append, h.votes, hnext.votes]

theorem Tracks.ok (t : p.Tracks u) : Alike (.ok p) (.ok u) := ⟨t, rfl, rfl, rfl⟩

theorem Tracks.fail (t : p.Tracks u) (f : Fault) : Alike (.fail p f) (.fail u f) :=
  ⟨t, rfl, rfl, rfl⟩

namespace Tracks

variable [DecidableEq H]

/-- Decisions and votes are written into a block. -/
theorem modify (t : p.Tracks u) (x : H) {f g : Block H Sig → Block H Sig}
    (hf : ∀ b, (f b).dag = b.dag) (hg : ∀ b, (g b).dag = b.dag)
    (hfg : p.storage x = u.storage x → (p.storage x).map f = (u.storage x).map g)
    (hself : ∀ b qc, p.storage x = some b → (f b).selfQc = some qc → qc.objHash = x) :
    (p.modify x f).Tracks (u.modify x g) := by
  have hp : (p.modify x f).storage x = (p.storage x).map f := Function.update_self _ _ _
  have hu : (u.modify x g).storage x = (u.storage x).map g := Function.update_self _ _ _
  have hdag : p.SameDag (p.modify x f) := .modify hf
  have hmem {b : Block H Sig} (hb : (p.modify x f).storage x = some b) :
      ∃ b₀, p.storage x = some b₀ ∧ b = f b₀ := by
    rw [hp] at hb
    obtain ⟨b₀, hb₀, rfl⟩ := Option.map_eq_some_iff.mp hb
    exact ⟨b₀, hb₀, rfl⟩
  refine t.of_block x (fun y hy => Function.update_of_ne hy _ _)
    (fun y hy => Function.update_of_ne hy _ _) t.rest rfl rfl rfl rfl ?_ ?_ ?_ ?_ ?_ ?_
  · rw [hp, hu]
    have hblk := t.blocks x
    cases hpx : p.storage x with
    | none =>
      rw [hpx] at hblk
      generalize hux : u.storage x = o at hblk
      cases hblk with
      | same => exact .same none
      | released hd =>
        obtain ⟨_, _, _, _, hdel⟩ := Block.dag_fields (hg _)
        exact .released (hdel.trans hd)
    | some b' =>
      obtain hux | ⟨b, hux, hrem⟩ := t.stored hpx
      · have heq := hfg (hpx.trans hux.symm)
        rw [hpx, hux] at heq
        rw [hux, heq]
        exact .same _
      · rw [hux]
        exact .remains (hrem.of_dag (hf b') (hg b))
  · rw [hp, Option.isSome_map]
    exact fun hs => hs
  · rw [hdag.delivered]
    exact fun hd => hd
  · intro b hb
    obtain ⟨b₀, hb₀, rfl⟩ := hmem hb
    obtain ⟨_, hpar, _⟩ := Block.dag_fields (hf b₀)
    rw [hpar]
    exact t.parents hb₀
  · intro b q hb hq
    obtain ⟨b₀, hb₀, rfl⟩ := hmem hb
    obtain ⟨_, _, hqc, _⟩ := Block.dag_fields (hf b₀)
    rw [hqc] at hq
    exact t.qcRef hb₀ hq
  · intro b qc hb hq
    obtain ⟨b₀, hb₀, rfl⟩ := hmem hb
    exact hself b₀ qc hb₀ hq

/-- A decision is written into both cores. -/
theorem decide (t : p.Tracks u) (x : H) :
    (p.modify x fun b => { b with decision := true }).Tracks
      (u.modify x fun b => { b with decision := true }) :=
  t.modify x (fun _ => rfl) (fun _ => rfl) (fun heq => by rw [heq])
    fun _ _ hb hq => t.selfQc hb hq

/-- A block is written into the pruned core, and the other core may write it as well. -/
theorem put (t : p.Tracks u) (x : H) {b' b : Block H Sig} {tails tails' : List H}
    (hx : Tracked (some b') (some b)) (hdel : p.delivered x = true → b'.delivered = true)
    (hpar : ∀ y ∈ b'.parents, p.delivered y = true)
    (hqc : ∀ q, b'.qcRef = some q → (p.storage q).isSome)
    (hself : ∀ qc, b'.selfQc = some qc → qc.objHash = x) :
    ({ p.put x b' with tails := tails' } : Core H Sig).Tracks { u.put x b with tails := tails } := by
  have hp : ({ p.put x b' with tails := tails' } : Core H Sig).storage x = some b' := put_self p x b'
  have hu : ({ u.put x b with tails := tails } : Core H Sig).storage x = some b := put_self u x b
  refine t.of_block x (fun y hy => put_of_ne p b' hy) (fun y hy => put_of_ne u b hy) t.rest rfl rfl
    rfl rfl ?_ ?_ ?_ ?_ ?_ ?_
  · rw [hp, hu]
    exact hx
  · rw [hp]
    exact fun _ => rfl
  · rw [delivered_of hp]
    exact hdel
  · intro b₀ hb₀
    rw [hp] at hb₀
    rw [← Option.some.inj hb₀]
    exact hpar
  · intro b₀ q hb₀ hq
    rw [hp] at hb₀
    rw [← Option.some.inj hb₀] at hq
    exact hqc q hq
  · intro b₀ qc hb₀ hq
    rw [hp] at hb₀
    rw [← Option.some.inj hb₀] at hq
    exact hself qc hq

omit [DecidableEq H] in
/-- The genesis block is never released. -/
theorem ne_genesis (t : p.Tracks u) (hdag : u.Dag P) {x : H} (hx : p.storage x = none) :
    x ≠ P.genesisHash := by
  rintro rfl
  have hd := t.b0
  rw [t.b0_eq, hdag.b0, Core.delivered, hx] at hd
  cases hd

theorem put_storage (c : Core H Sig) {x : H} {b : Block H Sig} (hb : c.storage x = some b) :
    c.put x b = c := by
  rw [Core.put, ← hb, Function.update_eq_self]

/-- A fetched block. -/
theorem addBlk (t : p.Tracks u) (hdag : u.Dag P) (d : BlockData H Sig) :
    (p.addBlk P d.fetched).Tracks (u.addBlk P d.fetched) := by
  have hknown {c : Core H Sig} {b : Block H Sig} (hx : c.storage (P.hashBlock d) = some b) :
      c.addBlk P d.fetched = c := by
    have hx : c.storage (P.hashBlock d.fetched.toBlockData) = some b := hx
    rw [Core.addBlk, hx]
  have hadd {c : Core H Sig} (hx : c.storage (P.hashBlock d) = none) :
      c.addBlk P d.fetched = { c.put (P.hashBlock d) d.fetched with tails := c.tails } := by
    have hx : c.storage (P.hashBlock d.fetched.toBlockData) = none := hx
    rw [Core.addBlk, hx]
    rfl
  have fetched {b : Block H Sig} (hx : Tracked (some d.fetched) (some b))
      (hnone : p.storage (P.hashBlock d) = none) (tails : List H) :
      ({ p.put (P.hashBlock d) d.fetched with tails := p.tails } : Core H Sig).Tracks
        { u.put (P.hashBlock d) b with tails := tails } := by
    refine t.put _ hx ?_ (by simp [BlockData.fetched])
      (by simp [BlockData.fetched]) (by simp [BlockData.fetched])
    intro hd
    rw [Core.delivered, hnone] at hd
    cases hd
  have hblk := t.blocks (P.hashBlock d)
  cases hpx : p.storage (P.hashBlock d) with
  | some b' =>
    obtain ⟨b, hb⟩ := Option.isSome_iff_exists.mp (t.isSome (h := P.hashBlock d) (by rw [hpx]; rfl))
    rw [hknown hpx, hknown hb]
    exact t
  | none =>
    rw [hpx] at hblk
    generalize hux : u.storage (P.hashBlock d) = o at hblk
    cases hblk with
    | same =>
      rw [hadd hpx, hadd hux]
      exact fetched (.same _) hpx u.tails
    | @released b hd =>
      -- the block has been released and comes back
      have hdata : d = b.toBlockData :=
        P.hashBlock_injective (hdag.hashed hux (t.ne_genesis hdag hpx)).symm
      have hrem : d.fetched.Remains b := ⟨hdata, hd, by simp [BlockData.fetched], Or.inl rfl⟩
      have ht := fetched (.remains hrem) hpx u.tails
      rw [hadd hpx, hknown hux]
      rwa [put_storage u hux] at ht

/-- A block that the pruned core has delivered is not delivered again. -/
theorem deliver_again (t : p.Tracks u) {x : H} (hd : p.delivered x = true) :
    Alike (p.onDeliverBlk x) (u.onDeliverBlk x) ∧ (p.onDeliverBlk x).core.delivered x = true ∧
      (p.onDeliverBlk x).exit = none := by
  have hskip {c : Core H Sig} (hd : c.delivered x = true) : c.onDeliverBlk x = .ok c := by
    obtain ⟨b, hb, hbd⟩ := stored_of_delivered hd
    rw [onDeliverBlk, hb]
    simp [hbd]
  rw [hskip hd, hskip (t.delivered hd)]
  exact ⟨t.ok, hd, rfl⟩

/-- A block whose parents are delivered in the pruned core, and whose certificate is for a block
that is there, is delivered in both cores. -/
theorem deliver (t : p.Tracks u) {x p₀ : H} {b' : Block H Sig} (hb' : p.storage x = some b')
    (hall : b'.parentHashes.all p.delivered = true) (hp₀ : b'.parentHashes.head? = some p₀)
    (hqc : (p.storage b'.qc.objHash).isSome)
    (hlinked : ∀ b, u.storage x = some b → b.delivered = true → b.parents = b.parentHashes ∧
      b.qcRef = some b.qc.objHash ∧ b.height = u.height p₀ + 1) :
    Alike (p.onDeliverBlk x) (u.onDeliverBlk x) ∧ (p.onDeliverBlk x).core.delivered x = true ∧
      (p.onDeliverBlk x).exit = none := by
  have hall' : ∀ y ∈ b'.parentHashes, p.delivered y = true := List.all_eq_true.mp hall
  have hp₀d : p.delivered p₀ = true := hall' p₀ (List.mem_of_mem_head? hp₀)
  have hheight := t.height hp₀d
  have hput {b : Block H Sig} (hx : Tracked (some (linked b' (p.height p₀ + 1))) (some b))
      (tails tails' : List H) :
      ({ p.put x (linked b' (p.height p₀ + 1)) with tails := tails' } : Core H Sig).Tracks
        { u.put x b with tails := tails } := by
    refine t.put x hx (fun _ => rfl) hall' ?_ ?_
    swap
    · intro qc hself
      have hself' : b'.selfQc = some qc := hself
      exact t.selfQc hb' hself'
    intro q hq
    rw [← Option.some.inj hq]
    exact hqc
  have hdeliver {c : Core H Sig} {b : Block H Sig} (hb : c.storage x = some b)
      (hbd : b.delivered = false) (hhead : b.parentHashes.head? = some p₀)
      (hqc : (c.storage b.qc.objHash).isSome) (hall : b.parentHashes.all c.delivered = true) :
      c.onDeliverBlk x = .ok { c.put x (linked b (c.height p₀ + 1)) with
        tails := (c.tails.filter (· ∉ b.parentHashes)).insert x } := by
    obtain ⟨hnot, _⟩ | ⟨_, hok⟩ := onDeliverBlk_of_stored hb hbd hhead hqc
    · rw [hall] at hnot
      cases hnot
    · exact hok
  have hskip {c : Core H Sig} {b : Block H Sig} (hb : c.storage x = some b)
      (hbd : b.delivered = true) : c.onDeliverBlk x = .ok c := by
    rw [onDeliverBlk, hb]
    simp [hbd]
  cases hbd' : b'.delivered with
  | true => exact t.deliver_again ((delivered_of hb').trans hbd')
  | false =>
    rw [hdeliver hb' hbd' hp₀ hqc hall]
    refine ⟨?_, delivered_of (put_self p x _), rfl⟩
    obtain ⟨b, hb⟩ := Option.isSome_iff_exists.mp (t.isSome (h := x) (by rw [hb']; rfl))
    cases hbd : b.delivered with
    | true =>
      rw [hskip hb hbd]
      obtain ⟨hpar, hq, hh⟩ := hlinked b hb hbd
      have hdata := t.qc_eq hb' hb
      have hrem : (linked b' (p.height p₀ + 1)).Remains b := by
        refine ⟨hdata, hbd, fun _ => ?_, Or.inr ⟨?_, ?_⟩⟩
        · rw [hh, ← hheight]
          rfl
        · rw [hq, ← hdata]
          rfl
        · rw [hpar, ← hdata]
          rfl
      have ht := hput (.remains hrem) u.tails ((p.tails.filter (· ∉ b'.parentHashes)).insert x)
      rw [put_storage u hb] at ht
      exact Tracks.ok ht
    | false =>
      have heq : p.storage x = u.storage x := t.undelivered (by rw [delivered_of hb, hbd])
      rw [hb', hb] at heq
      obtain rfl := Option.some.inj heq
      have hall₁ : b'.parentHashes.all u.delivered = true :=
        List.all_eq_true.mpr fun y hy => t.delivered (hall' y hy)
      rw [hdeliver hb hbd hp₀ (t.isSome hqc) hall₁, ← hheight]
      exact Tracks.ok (hput (.same _) _ _)

variable {cmds : List UInt256} {parents : List H} {p₀ bnew : H} {extra : Bytes}

omit [DecidableEq H] in
theorem proposedData (t : p.Tracks u) (cmds : List UInt256) (parents : List H) (extra : Bytes) :
    p.proposedData P cmds parents extra = u.proposedData P cmds parents extra := by
  rw [Core.proposedData, Core.proposedData, t.hqc_eq]

/-- The own block is stored. -/
theorem storeProposed (t : p.Tracks u) (hu : u.WellFormed P) (hp₀ : parents.head? = some p₀)
    (hpar : parents.all p.delivered = true)
    (hbnew : P.hashBlock (u.proposedData P cmds parents extra) = bnew) :
    (p.storeProposed P cmds parents p₀ extra).Tracks (u.storeProposed P cmds parents p₀ extra) := by
  have hpar' : ∀ y ∈ parents, p.delivered y = true := List.all_eq_true.mp hpar
  have hp₀d : p.delivered p₀ = true := hpar' p₀ (List.mem_of_mem_head? hp₀)
  rw [storeProposed_eq, storeProposed_eq, t.proposedData, hbnew, t.config_eq]
  have hself (b : Block H Sig) (qc : QuorumCert H Sig)
      (hq : ({ b with selfQc := some (.create u.config bnew) } : Block H Sig).selfQc = some qc) :
      qc.objHash = bnew := by
    rw [← Option.some.inj hq]
    rfl
  cases hpx : p.storage bnew with
  | some b' =>
    obtain ⟨b, hb⟩ := Option.isSome_iff_exists.mp (t.isSome (h := bnew) (by rw [hpx]; rfl))
    rw [hb]
    have hqc (q : H) (hq : b'.qcRef = some q) := t.qcRef hpx hq
    have hparents := t.parents hpx
    refine t.put bnew ?_ ?_ hparents hqc (hself _)
    · obtain hsame | ⟨b₁, hb₁, hrem⟩ := t.stored hpx
      · rw [hb] at hsame
        rw [Option.some.inj hsame]
        exact .same _
      · rw [hb] at hb₁
        rw [Option.some.inj hb₁]
        exact .remains (hrem.of_dag rfl rfl)
    · rw [delivered_of hpx]
      exact fun hd => hd
  | none =>
    have hblock : p.proposedBlock P cmds parents p₀ extra = u.proposedBlock P cmds parents p₀ extra := by
      rw [proposedBlock, proposedBlock, t.proposedData, t.height hp₀d, t.hqc_eq]
    have hnew {b : Block H Sig}
        (hx : Tracked (some { u.proposedBlock P cmds parents p₀ extra with
          selfQc := some (.create u.config bnew) }) (some b)) (tails tails' : List H) :
        ({ p.put bnew { u.proposedBlock P cmds parents p₀ extra with
          selfQc := some (.create u.config bnew) } with tails := tails' } : Core H Sig).Tracks
            { u.put bnew b with tails := tails } := by
      refine t.put bnew hx ?_ hpar' ?_ (hself _)
      · intro hd
        rw [Core.delivered, hpx] at hd
        cases hd
      · intro q hq
        obtain ⟨b₁, hb₁, _⟩ := stored_of_delivered t.hqc
        rw [← Option.some.inj hq, ← t.hqc_eq, hb₁]
        rfl
    rw [hblock]
    have hblk := t.blocks bnew
    rw [hpx] at hblk
    generalize hux : u.storage bnew = o at hblk
    cases hblk with
    | same => exact hnew (.same _) _ _
    | @released b hd =>
      -- the block has been released and is proposed again
      have hne := t.ne_genesis hu.dag hpx
      have hdata : b.toBlockData = u.proposedData P cmds parents extra :=
        P.hashBlock_injective ((hu.dag.hashed hux hne).trans hbnew.symm)
      obtain ⟨hlpar, hlqc, _⟩ := hu.dag.linked hux hne hd
      have hrem : Block.Remains { u.proposedBlock P cmds parents p₀ extra with
          selfQc := some (.create u.config bnew) }
            { b with selfQc := some (.create u.config bnew) } := by
        refine ⟨hdata.symm, hd, (fun h => by cases h), Or.inr ⟨?_, ?_⟩⟩
        · change some u.hqc.1 = b.qcRef
          rw [hlqc, ← hu.hqcCert]
          exact congrArg (fun d => some (QuorumCert.objHash (BlockData.qc d))) hdata.symm
        · change parents = b.parents
          rw [hlpar]
          exact congrArg BlockData.parentHashes hdata.symm
      exact hnew (.remains hrem) _ _

/-- Storing the own block keeps the delivered blocks. -/
theorem storeProposed_kept (P : Primitives H Sig) (cmds : List UInt256) (parents : List H) (p₀ : H)
    (extra : Bytes) {c : Core H Sig} {y : H} (hd : c.delivered y = true) :
    (c.storeProposed P cmds parents p₀ extra).delivered y = true ∧
      (c.storeProposed P cmds parents p₀ extra).height y = c.height y := by
  rw [storeProposed_eq]
  generalize P.hashBlock (c.proposedData P cmds parents extra) = bnew
  obtain ⟨b, hb, hbd⟩ := stored_of_delivered hd
  by_cases hy : y = bnew
  · subst hy
    have hst := put_self c y { (c.storage y).getD (c.proposedBlock P cmds parents p₀ extra) with
      selfQc := some (.create c.config y) }
    refine ⟨(delivered_of hst).trans ?_, (height_of hst).trans ?_⟩
    · rw [hb]
      exact hbd
    · rw [height_of hb, hb]
      rfl
  · have hst := (put_of_ne c { (c.storage bnew).getD (c.proposedBlock P cmds parents p₀ extra) with
      selfQc := some (.create c.config bnew) } hy).trans hb
    exact ⟨(delivered_of hst).trans hbd, (height_of hst).trans (height_of hb).symm⟩

/-- The own block is stored and delivered. -/
theorem deliverProposed (t : p.Tracks u) (hu : u.WellFormed P) (hp₀ : parents.head? = some p₀)
    (hpar : parents.all p.delivered = true)
    (hbnew : P.hashBlock (u.proposedData P cmds parents extra) = bnew) :
    Alike ((p.storeProposed P cmds parents p₀ extra).onDeliverBlk bnew)
        ((u.storeProposed P cmds parents p₀ extra).onDeliverBlk bnew) ∧
      ((p.storeProposed P cmds parents p₀ extra).onDeliverBlk bnew).core.delivered bnew = true ∧
      ((p.storeProposed P cmds parents p₀ extra).onDeliverBlk bnew).exit = none := by
  have t₁ := t.storeProposed hu hp₀ hpar hbnew
  have hpar' : ∀ y ∈ parents, p.delivered y = true := List.all_eq_true.mp hpar
  have hp₀d := t.delivered (hpar' p₀ (List.mem_of_mem_head? hp₀))
  obtain ⟨b, tails, hu₁, _, _, hcases⟩ := storeProposed_storage hu rfl hbnew
  have hb : (u.storeProposed P cmds parents p₀ extra).storage bnew = some b := by
    rw [hu₁]
    exact put_self u bnew b
  have hp₁ : ∃ b', (p.storeProposed P cmds parents p₀ extra).storage bnew = some b' := by
    rw [storeProposed_eq, t.proposedData, hbnew]
    exact ⟨_, put_self p bnew _⟩
  obtain ⟨b', hb'⟩ := hp₁
  cases hbd' : b'.delivered with
  | true => exact t₁.deliver_again ((delivered_of hb').trans hbd')
  | false =>
    have hne : bnew ≠ P.genesisHash := by
      rintro rfl
      have hd := (storeProposed_kept P cmds parents p₀ extra t.b0).1
      rw [t.b0_eq, hu.dag.b0, delivered_of hb', hbd'] at hd
      cases hd
    have hdata : b.toBlockData = u.proposedData P cmds parents extra := by
      obtain ⟨_, b₀, _, hb₀, rfl⟩ | ⟨_, _, _, _, hdata⟩ := hcases
      · exact P.hashBlock_injective ((hu.dag.hashed hb₀ hne).trans hbnew.symm)
      · exact hdata
    have hdata' := (t₁.qc_eq hb' hb).trans hdata
    have hparents : b'.parentHashes = parents := congrArg BlockData.parentHashes hdata'
    have hqc : b'.qc.objHash = p.hqc.1 := by
      rw [t.hqc_eq, ← hu.hqcCert]
      exact congrArg (fun d => QuorumCert.objHash (BlockData.qc d)) hdata'
    have hhead : b'.parentHashes.head? = some p₀ := by rw [hparents, hp₀]
    refine t₁.deliver hb' ?_ hhead ?_ ?_
    · rw [hparents]
      exact List.all_eq_true.mpr fun y hy => (storeProposed_kept P cmds parents p₀ extra (hpar' y hy)).1
    · obtain ⟨b₁, hb₁, _⟩ := stored_of_delivered
        (storeProposed_kept P cmds parents p₀ extra t.hqc).1
      rw [hqc, hb₁]
      rfl
    · intro b₁ hb₁ hbd
      rw [hb] at hb₁
      obtain rfl := Option.some.inj hb₁
      obtain ⟨_, b₀, _, hb₀, rfl⟩ | ⟨_, hund, _⟩ := hcases
      · obtain ⟨hlpar, hlqc, q, hhead, _, hheight⟩ := hu.dag.linked hb₀ hne hbd
        have hq : q = p₀ := by
          have heq : b₀.parentHashes = parents := congrArg BlockData.parentHashes hdata
          rw [heq, hp₀] at hhead
          exact (Option.some.inj hhead).symm
        rw [hq] at hheight
        refine ⟨hlpar, hlqc, ?_⟩
        rw [(storeProposed_kept P cmds parents p₀ extra hp₀d).2]
        exact hheight
      · rw [hund] at hbd
        cases hbd

end Tracks

end Core
end LibHotStuff
