import LibHotStuff.Library.Chain
import LibHotStuff.Proofs.Pruning
import Mathlib

/-! What `prune` does to the stored blocks: the ancestors of the block at which it starts lose their
parents and certificates, and of these only blocks that nothing refers to are released. -/

namespace LibHotStuff

variable {H Sig : Type}

namespace Core

variable {c p p' : Core H Sig} {ext : Holders H} {held : List H} {start blk x y : H}
  {stack rest : List H}

/-- `y` is reached from `x` through edges to parents. -/
def Ancestor (c : Core H Sig) : H → H → Prop :=
  Relation.ReflTransGen fun a b => b ∈ c.parents a

variable [DecidableEq H]

/-- A block that no stored block, no field of the core and nothing outside refers to. -/
structure Releasable (c : Core H Sig) (held : List H) (blk : H) : Prop
    extends c.Unreferenced blk where
  tails : blk ∉ c.tails
  held : blk ∉ held

/-- What `prune` leaves of a block above which it has cut all edges. -/
def cleared (start h : H) (b : Block H Sig) : Block H Sig :=
  { b with parents := [], qcRef := if h = start ∨ b.parents ≠ [] then none else b.qcRef }

/-- The effect of `prune` from the block `start` on. -/
structure PruneEffect (c p : Core H Sig) (held : List H) (start : H) : Prop where
  fields : p = { c with storage := p.storage }
  kept : ∀ h, ¬ c.Ancestor start h → p.storage h = c.storage h
  reached : ∀ h, c.Ancestor start h →
    p.storage h = (c.storage h).map (cleared start h) ∨
      p.storage h = none ∧ h ≠ start ∧ p.Releasable held h

/-- What the visits have left of a block so far. -/
structure Cutting (start h : H) (b b' : Block H Sig) : Prop where
  rest : b' = { b with qcRef := b'.qcRef, parents := b'.parents }
  parents : b'.parents ⊆ b.parents
  refs : b'.qcRef = none ∧ (h = start ∨ b.parents ≠ []) ∨
    h ≠ start ∧ b'.qcRef = b.qcRef ∧ b'.parents = b.parents

/-- Between two turns of the loop of `prune`, which has been called with the core `c`. -/
structure Clearing (c p : Core H Sig) (ext : Holders H) (start : H) (stack : List H) : Prop where
  keyed : p.Keyed ext.keys
  fields : p = { c with storage := p.storage }
  reached : ∀ x ∈ stack, c.Ancestor start x
  kept : ∀ x, ¬ c.Ancestor start x → p.storage x = c.storage x
  blocks : ∀ {x b}, c.storage x = some b →
    (∃ b', p.storage x = some b' ∧ Cutting start x b b') ∨
      p.storage x = none ∧ x ≠ start ∧ p.Releasable ext.held x
  fresh : ∀ {x}, (p.storage x).isSome → (c.storage x).isSome
  visited : start ∈ stack ∨ p.parents start = []
  edges : ∀ {x y}, y ∈ c.parents x → y ∈ p.parents x ∨ y ∈ stack ∨ p.parents y = []

theorem releasable (hkeys : p.Keyed ext.keys) (h : p.tryReleaseBlk ext start rest blk ≠ p) :
    p.Releasable ext.held blk ∧ blk ≠ start ∧ blk ∉ rest ∧
      p.tryReleaseBlk ext start rest blk = p.without blk := by
  unfold tryReleaseBlk at h ⊢
  split at h
  · rename_i hzero
    have hrest := List.count_eq_zero.mp (Nat.eq_zero_of_add_eq_zero_left hzero)
    have hsum := Nat.eq_zero_of_add_eq_zero_right hzero
    have href := Nat.eq_zero_of_add_eq_zero_right hsum
    have hheld := List.count_eq_zero.mp (Nat.eq_zero_of_add_eq_zero_left hsum)
    have htails : p.tails.count blk = 0 := by
      unfold references at href
      omega
    rw [List.mem_cons, not_or] at hrest
    rw [if_pos hzero]
    exact ⟨⟨unreferenced hkeys href, List.count_eq_zero.mp htails, hheld⟩, hrest.1, hrest.2, rfl⟩
  · exact absurd rfl h

omit [DecidableEq H] in
/-- References do not come back. -/
theorem Releasable.mono (h : p.Releasable held blk) (hfields : p' = { p with storage := p'.storage })
    (hrefs : ∀ {x b'}, p'.storage x = some b' → ∃ b, p.storage x = some b ∧
      b'.parents ⊆ b.parents ∧ (b'.qcRef = none ∨ b'.qcRef = b.qcRef)) :
    p'.Releasable held blk := by
  have hb0 : p'.b0 = p.b0 := by rw [hfields]
  have hhqc : p'.hqc = p.hqc := by rw [hfields]
  have hlock : p'.bLock = p.bLock := by rw [hfields]
  have hexec : p'.bExec = p.bExec := by rw [hfields]
  have htails : p'.tails = p.tails := by rw [hfields]
  refine ⟨⟨fun hb hmem => ?_, fun hb hq => ?_, ?_, ?_, ?_, ?_⟩, ?_, h.held⟩
  · obtain ⟨b, hb, hsub, _⟩ := hrefs hb
    exact h.parents hb (hsub hmem)
  · obtain ⟨b, hb, _, hnone | hsame⟩ := hrefs hb
    · rw [hnone] at hq
      cases hq
    · exact h.qcRef hb (hsame ▸ hq)
  · rw [hb0]
    exact h.b0
  · rw [hhqc]
    exact h.hqc
  · rw [hlock]
    exact h.bLock
  · rw [hexec]
    exact h.bExec
  · rw [htails]
    exact h.tails

theorem Releasable.without (h : p.Releasable held blk) (x : H) :
    (p.without x).Releasable held blk :=
  h.mono rfl fun hb => ⟨_, without_stored hb, List.Subset.refl _, Or.inr rfl⟩

/-- A stored block after a write to one block. -/
theorem modify_cases {f : Block H Sig → Block H Sig} {b' : Block H Sig}
    (hb : (p.modify blk f).storage x = some b') :
    (∃ b, x = blk ∧ p.storage blk = some b ∧ b' = f b) ∨ x ≠ blk ∧ p.storage x = some b' := by
  by_cases hx : x = blk
  · subst hx
    rw [modify_self, Option.map_eq_some_iff] at hb
    obtain ⟨b, hb, hf⟩ := hb
    exact Or.inl ⟨b, rfl, hb, hf.symm⟩
  · rw [modify_of_ne p f hx] at hb
    exact Or.inr ⟨hx, hb⟩

theorem Releasable.cut (h : p.Releasable held blk) (x : H) :
    (p.modify x fun b => { b with qcRef := none, parents := b.parents.dropLast }).Releasable held
      blk := by
  refine h.mono rfl fun {y b'} hb' => ?_
  obtain ⟨b, rfl, hb, rfl⟩ | ⟨_, hb⟩ := modify_cases hb'
  · exact ⟨b, hb, List.dropLast_subset _, Or.inl rfl⟩
  · exact ⟨b', hb, List.Subset.refl _, Or.inr rfl⟩

omit [DecidableEq H] in
theorem eq_or_mem_dropLast {l : List H} (hlast : l.getLast? = some y) (hx : x ∈ l) :
    x = y ∨ x ∈ l.dropLast := by
  rw [← List.dropLast_append_getLast? y hlast, List.mem_append, List.mem_singleton] at hx
  exact hx.symm

namespace Clearing

/-- The loop begins. -/
theorem init (hkeys : c.Keyed ext.keys) :
    c.Clearing (c.modify start fun b => { b with qcRef := none }) ext start [start] := by
  have hother {x : H} (hx : x ≠ start) :
      (c.modify start fun b => { b with qcRef := none }).storage x = c.storage x :=
    modify_of_ne c _ hx
  have hparents (x : H) :
      (c.modify start fun b => { b with qcRef := none }).parents x = c.parents x := by
    by_cases hx : x = start
    · rw [hx, parents, parents, modify_self, Option.map_map]
      rfl
    · rw [parents, parents, hother hx]
  have hstored {x : H} (hx : ((c.modify start fun b => { b with qcRef := none }).storage x).isSome) :
      (c.storage x).isSome := by
    by_cases hxs : x = start
    · rw [hxs, modify_self, Option.isSome_map] at hx
      rw [hxs]
      exact hx
    · rwa [hother hxs] at hx
  refine ⟨fun x hx => hkeys x (hstored hx), rfl, fun x hx => ?_, fun x hx => ?_,
    fun {x b} hb => Or.inl ?_, hstored, Or.inl (List.mem_singleton_self _), fun hy => Or.inl ?_⟩
  · rw [List.mem_singleton.mp hx]
    exact .refl
  · refine hother ?_
    rintro rfl
    exact hx .refl
  · by_cases hx : x = start
    · subst hx
      refine ⟨{ b with qcRef := none }, ?_, rfl, List.Subset.refl _, Or.inl ⟨rfl, Or.inl rfl⟩⟩
      rw [modify_self, hb, Option.map_some]
    · exact ⟨b, by rw [hother hx, hb], rfl, List.Subset.refl _, Or.inr ⟨hx, rfl, rfl⟩⟩
  · rwa [hparents]

omit [DecidableEq H] in
/-- The block on top has no parents left. -/
theorem pop (h : c.Clearing p ext start (blk :: rest)) (hnil : p.parents blk = []) :
    c.Clearing p ext start rest := by
  refine ⟨h.keyed, h.fields, fun x hx => h.reached x (List.mem_cons_of_mem _ hx), h.kept, h.blocks,
    h.fresh, ?_, fun hy => ?_⟩
  · obtain hmem | hstart := h.visited
    · obtain rfl | hmem := List.mem_cons.mp hmem
      · exact Or.inr hnil
      · exact Or.inl hmem
    · exact Or.inr hstart
  · obtain hp | hmem | hcut := h.edges hy
    · exact Or.inl hp
    · obtain rfl | hmem := List.mem_cons.mp hmem
      · exact Or.inr (Or.inr hnil)
      · exact Or.inr (Or.inl hmem)
    · exact Or.inr (Or.inr hcut)

/-- A block without parents is released. -/
theorem release (h : c.Clearing p ext start stack) (hreach : c.Ancestor start blk)
    (hnil : p.parents blk = []) (hfree : p.Releasable ext.held blk) (hstart : blk ≠ start) :
    c.Clearing (p.without blk) ext start stack := by
  have hparents (x : H) : (p.without blk).parents x = p.parents x := by
    by_cases hx : x = blk
    · rw [hx, hnil, parents, without_self]
      rfl
    · rw [parents, parents, without_of_ne p hx]
  have hstored {x : H} (hx : ((p.without blk).storage x).isSome) : (p.storage x).isSome := by
    obtain ⟨b, hb⟩ := Option.isSome_iff_exists.mp hx
    rw [without_stored hb]
    rfl
  refine ⟨fun x hx => h.keyed x (hstored hx), ?_, h.reached, fun x hx => ?_, fun {x b} hb => ?_,
    fun hx => h.fresh (hstored hx), ?_, fun {x y} hy => ?_⟩
  · have hfields := h.fields
    rw [without, hfields]
  · have hne : x ≠ blk := by
      rintro rfl
      exact hx hreach
    rw [without_of_ne p hne, h.kept x hx]
  · by_cases hx : x = blk
    · subst hx
      exact Or.inr ⟨without_self p x, hstart, hfree.without x⟩
    · rw [without_of_ne p hx]
      obtain hleft | ⟨hgone, hne, hreleased⟩ := h.blocks hb
      · exact Or.inl hleft
      · exact Or.inr ⟨hgone, hne, hreleased.without blk⟩
  · rw [hparents]
    exact h.visited
  · rw [hparents, hparents]
    exact h.edges hy

/-- The last edge of the block on top is cut off, and its end goes on the stack. -/
theorem push (h : c.Clearing p ext start (blk :: rest)) {parent : H}
    (hlast : (p.parents blk).getLast? = some parent) :
    c.Clearing (p.modify blk fun b => { b with qcRef := none, parents := b.parents.dropLast }) ext
      start (parent :: blk :: rest) := by
  have hparent := List.mem_of_getLast? hlast
  have hreach := h.reached blk (List.mem_cons_self ..)
  have hstored := fun x => (cut_delivered p blk List.dropLast x).2
  obtain ⟨b₁, hb₁, hmem⟩ := mem_parents hparent
  have hsome : (p.storage blk).isSome := by
    rw [hb₁]
    rfl
  obtain ⟨b₀, hb₀⟩ := Option.isSome_iff_exists.mp (h.fresh hsome)
  obtain ⟨b', hb', hcut⟩ | ⟨hgone, _⟩ := h.blocks hb₀
  swap
  · rw [hgone] at hb₁
    cases hb₁
  obtain rfl : b' = b₁ := Option.some.inj (hb'.symm.trans hb₁)
  have hsub {y : H} (hy : y ∈ b'.parents) : y ∈ c.parents blk := by
    rw [parents_of hb₀]
    exact hcut.parents hy
  have hself : (p.modify blk fun b => { b with
      qcRef := none, parents := b.parents.dropLast }).parents blk = b'.parents.dropLast := by
    rw [parents, modify_self, hb', Option.map_some]
    rfl
  have hother {x : H} (hx : x ≠ blk) : (p.modify blk fun b => { b with
      qcRef := none, parents := b.parents.dropLast }).parents x = p.parents x := by
    rw [parents, parents, modify_of_ne p _ hx]
  have hempty {x : H} (hx : p.parents x = []) : (p.modify blk fun b => { b with
      qcRef := none, parents := b.parents.dropLast }).parents x = [] := by
    by_cases hxb : x = blk
    · rw [hxb] at hx
      rw [hx] at hparent
      cases hparent
    · rw [hother hxb, hx]
  refine ⟨fun x hx => h.keyed x (hstored x ▸ hx), ?_, fun x hx => ?_, fun x hx => ?_,
    fun {x b} hb => ?_, fun {x} hx => h.fresh (hstored x ▸ hx), ?_, fun {x y} hy => ?_⟩
  · have hfields := h.fields
    rw [modify, hfields]
  · obtain rfl | hx := List.mem_cons.mp hx
    · exact hreach.tail (hsub hmem)
    · exact h.reached x hx
  · have hne : x ≠ blk := by
      rintro rfl
      exact hx hreach
    rw [modify_of_ne p _ hne, h.kept x hx]
  · by_cases hx : x = blk
    · subst hx
      obtain rfl : b = b₀ := Option.some.inj (hb.symm.trans hb₀)
      refine Or.inl ⟨_, by rw [modify_self, hb', Option.map_some], ?_, ?_, Or.inl ⟨rfl, Or.inr ?_⟩⟩
      · have hrest := hcut.rest
        rw [hrest]
      · exact fun y hy => hcut.parents (List.dropLast_subset _ hy)
      · exact List.ne_nil_of_mem (hcut.parents hmem)
    · rw [modify_of_ne p _ hx]
      obtain hleft | ⟨hgone, hne, hreleased⟩ := h.blocks hb
      · exact Or.inl hleft
      · exact Or.inr ⟨hgone, hne, hreleased.cut blk⟩
  · obtain hstack | hnil := h.visited
    · exact Or.inl (List.mem_cons_of_mem _ hstack)
    · exact Or.inr (hempty hnil)
  · obtain hp | hstack | hnil := h.edges hy
    · by_cases hx : x = blk
      · subst hx
        rw [parents_of hb'] at hp hlast
        obtain rfl | hp := eq_or_mem_dropLast hlast hp
        · exact Or.inr (Or.inl (List.mem_cons_self ..))
        · rw [hself]
          exact Or.inl hp
      · rw [hother hx]
        exact Or.inl hp
    · exact Or.inr (Or.inl (List.mem_cons_of_mem _ hstack))
    · exact Or.inr (Or.inr (hempty hnil))

/-- One turn. -/
theorem step (h : c.Clearing p ext start (blk :: rest)) :
    c.Clearing (pruneStep ext start (p, blk :: rest)).1 ext start
      (pruneStep ext start (p, blk :: rest)).2 := by
  rw [pruneStep]
  cases hlast : (p.parents blk).getLast? with
  | none =>
    have hnil := List.getLast?_eq_none_iff.mp hlast
    have hpop := h.pop hnil
    by_cases hkept : p.tryReleaseBlk ext start rest blk = p
    · dsimp only
      rw [hkept]
      exact hpop
    · obtain ⟨hfree, hstart, _, hreleased⟩ := releasable h.keyed hkept
      dsimp only
      rw [hreleased]
      exact hpop.release (h.reached blk (List.mem_cons_self ..)) hnil hfree hstart
  | some parent => exact h.push hlast

omit [DecidableEq H] in
/-- With an empty stack all edges above the start have been cut off. -/
theorem parents_nil (h : c.Clearing p ext start []) (hx : c.Ancestor start x) :
    p.parents x = [] := by
  induction hx with
  | refl => exact h.visited.resolve_left List.not_mem_nil
  | tail _ hy ih =>
    obtain hp | hstack | hnil := h.edges hy
    · rw [ih] at hp
      cases hp
    · cases hstack
    · exact hnil

theorem effect (h : c.Clearing p ext start []) : c.PruneEffect p ext.held start := by
  refine ⟨h.fields, h.kept, fun x hx => ?_⟩
  cases hb : c.storage x with
  | none =>
    refine Or.inl (Option.not_isSome_iff_eq_none.mp fun hsome => ?_)
    have hstored := h.fresh hsome
    rw [hb] at hstored
    cases hstored
  | some b =>
    obtain ⟨b', hb', hcut⟩ | hreleased := h.blocks hb
    · have hnil := h.parents_nil hx
      rw [parents_of hb'] at hnil
      refine Or.inl ?_
      rw [hb', Option.map_some, Option.some.injEq, cleared, hcut.rest, hnil]
      obtain ⟨hqc, hcond⟩ | ⟨hstart, hqc, hsame⟩ := hcut.refs
      · rw [hqc, if_pos hcond]
      · rw [hqc, if_neg]
        rintro (heq | hne)
        · exact hstart heq
        · exact hne (hsame ▸ hnil)
    · exact Or.inr hreleased

end Clearing

omit [DecidableEq H] in
/-- The start is an ancestor of `b_exec` on the chain of first parents. -/
theorem pruneStart_eq_up (c : Core H Sig) (staleness : Nat) (x : H) :
    c.pruneStart staleness x = Chain.up c.parent0 staleness x := by
  induction staleness generalizing x with
  | zero => rfl
  | succ n ih =>
    have hhead : (c.parents x).head? = c.parent0 x := by
      rw [parents, parent0]
      cases c.storage x <;> rfl
    rw [pruneStart, Chain.up_succ, hhead]
    exact Option.bind_congr fun y _ => ih y

/-- `prune` returns, and either there is no block to start at or it has its effect. -/
theorem prune_cases (ext : Holders H) (hkeys : c.Keyed ext.keys) (staleness : Nat) :
    ∃ p, c.prune ext staleness = some p ∧ p.Keyed ext.keys ∧
      (Chain.up c.parent0 staleness c.bExec = none → p = c) ∧
      ∀ start, Chain.up c.parent0 staleness c.bExec = some start →
        c.PruneEffect p ext.held start := by
  cases hstart : c.pruneStart staleness c.bExec with
  | none =>
    refine ⟨c, prune_of_none ext hstart, hkeys, fun _ => rfl, fun start hup => ?_⟩
    rw [← pruneStart_eq_up, hstart] at hup
    cases hup
  | some start =>
    obtain ⟨p, hprune, hleft⟩ := prune_rule (I := fun p stack => c.Clearing p ext start stack)
      (fun h => h.keyed) (fun h => h.step) hstart (.init hkeys)
    refine ⟨p, hprune, hleft.keyed, fun hup => ?_, fun start' hup => ?_⟩
    · rw [← pruneStart_eq_up, hstart] at hup
      cases hup
    · rw [← pruneStart_eq_up, hstart] at hup
      rw [← Option.some.inj hup]
      exact hleft.effect

end Core

namespace Pruning

variable {P : Primitives H Sig} {s s' : Pruning H Sig} [DecidableEq H]

theorem keyed_step (h : s.pruned.Keyed s.keys) {e : PruneEvent H Sig}
    (hstep : s.step P e = some s') : s'.pruned.Keyed s'.keys := by
  cases e with
  | call i =>
    simp only [Pruning.step] at hstep
    split at hstep
    · cases hstep
    rw [← Option.some.inj hstep]
    exact handled_keyed h i
  | prune staleness held =>
    obtain ⟨p, hprune, hkeyed, _⟩ := Core.prune_cases ⟨s.keys, held⟩ h staleness
    simp only [Pruning.step, hprune, Option.map_some] at hstep
    rw [← Option.some.inj hstep]
    exact keyed_filter hkeyed

variable {dummy : QuorumCert H Sig} {replicas : List NetAddr} {listenAddr : NetAddr}
  {id : ReplicaID}

theorem keyed_of_reaches (h : Transition.Reaches (step P) (fun _ _ => True)
    (init P dummy replicas listenAddr id) s) : s.pruned.Keyed s.keys := by
  induction h with
  | refl => exact (init_paired P dummy replicas listenAddr id).keyed
  | tail _ hlast ih =>
    obtain ⟨_, _, hstep⟩ := hlast
    exact keyed_step ih hstep

/-- The effect of `prune` in every run: it returns; it changes nothing when `b_exec` has too few
ancestors; and else all edges above its start are cut off, every other block is kept, and a block
is released only if nothing refers to it. -/
theorem prune_effect (h : Transition.Reaches (step P) (fun _ _ => True)
    (init P dummy replicas listenAddr id) s) (staleness : Nat) (held : List H) :
    ∃ p, s.pruned.prune ⟨s.keys, held⟩ staleness = some p ∧
      (Chain.up s.pruned.parent0 staleness s.pruned.bExec = none → p = s.pruned) ∧
      ∀ start, Chain.up s.pruned.parent0 staleness s.pruned.bExec = some start →
        s.pruned.PruneEffect p held start := by
  obtain ⟨p, hprune, _, heffect⟩ := Core.prune_cases ⟨s.keys, held⟩ (keyed_of_reaches h) staleness
  exact ⟨p, hprune, heffect⟩

end Pruning

namespace Concrete

/-- Block 3 has two parents, and block 4 shares one of them. -/
def latticeBlocks : List (BlockData Nat Signature) :=
  [emptyBlock 0 (cert [] 0) 0, emptyBlock 0 (cert [] 0) 1,
    { parentHashes := [1, 2], cmds := [], qc := cert [0, 1, 3] 1, extra := [] },
    { parentHashes := [3, 2], cmds := [], qc := cert [0, 1, 3] 3, extra := [] },
    emptyBlock 4 (cert [0, 1, 3] 4) 0, emptyBlock 5 (cert [0, 1, 3] 5) 0]

/-- All blocks are delivered, and the last one commits block 3. -/
def latticeEvents : List (PruneEvent Nat Signature) :=
  (latticeBlocks.zipIdx 1).flatMap (fun (data, h) =>
    [.call (.addBlk data), .call (.onDeliverBlk h)]) ++
      [.call (.onReceiveProposal (offered latticeBlocks 6))]

/-- The start of a `prune`, and the blocks that are stored when it returns. -/
def pruneOf (s : Pruning Nat Signature) (staleness : Nat) : Option Nat × Option (List Nat) :=
  (Chain.up s.pruned.parent0 staleness s.pruned.bExec,
    (s.pruned.prune ⟨s.keys, []⟩ staleness).map fun p =>
      s.keys.filter fun h => (p.storage h).isSome)

set_option maxRecDepth 100000 in
theorem lattice_run :
    (Transition.runBy (Pruning.step (primitives latticeBlocks [])) (fun _ _ => True)
      (Pruning.init (primitives latticeBlocks []) noCert [10, 11, 12, 13] 10 0)
        latticeEvents).map (fun s => (pruneOf s 0, pruneOf s 3)) =
          some ((some 3, some [6, 5, 4, 3, 2, 0]), (none, some [6, 5, 4, 3, 2, 1, 0])) := by
  decide +kernel

/-- From block 3 on block 1 is released; block 2 is not, since block 4 refers to it. -/
theorem prune_effect_lattice : ∃ (s : Pruning Nat Signature) (p : Core Nat Signature),
    pruneOf s 0 = (some 3, some [6, 5, 4, 3, 2, 0]) ∧
      s.pruned.prune ⟨s.keys, []⟩ 0 = some p ∧ s.pruned.PruneEffect p [] 3 := by
  obtain ⟨s, hreach, hseen⟩ := Transition.runBy_map_reaches lattice_run
  have hends := congrArg Prod.fst hseen
  obtain ⟨p, hprune, _, heffect⟩ := Pruning.prune_effect hreach 0 []
  exact ⟨s, p, hends, hprune, heffect 3 (congrArg Prod.fst hends)⟩

end Concrete
end LibHotStuff
