import LibHotStuff.Proofs.PrunedStore
import Mathlib

/-! The loop of `prune`: what is left tracks the core that has not been pruned, and the loop ends. -/

namespace LibHotStuff

variable {H Sig : Type}

namespace Core

variable {c c' p u : Core H Sig} {ext : Holders H} {start blk : H} {stack rest : List H}

theorem mem_parents {y : H} (hy : y ∈ c.parents blk) : ∃ b, c.storage blk = some b ∧ y ∈ b.parents := by
  rw [parents] at hy
  cases hb : c.storage blk with
  | none => simp [hb] at hy
  | some b =>
    rw [hb] at hy
    exact ⟨b, rfl, hy⟩

theorem parents_of {b : Block H Sig} (hb : c.storage blk = some b) : c.parents blk = b.parents := by
  rw [parents, hb]
  rfl

/-- The keys of `blk_cache` are all there. -/
def Keyed (c : Core H Sig) (keys : List H) : Prop := ∀ h, (c.storage h).isSome → h ∈ keys

/-- Between two turns of the loop. -/
structure Unwinding (p u : Core H Sig) (ext : Holders H) (start : H) (stack : List H) : Prop where
  tracks : p.Tracks u
  keyed : p.Keyed ext.keys
  start : p.delivered start = true
  stack : ∀ x ∈ stack, p.delivered x = true

variable [DecidableEq H]

/-- A block that nothing refers to. -/
structure Unreferenced (c : Core H Sig) (blk : H) : Prop where
  parents : ∀ {h b}, c.storage h = some b → blk ∉ b.parents
  qcRef : ∀ {h b}, c.storage h = some b → b.qcRef ≠ some blk
  b0 : c.b0 ≠ blk
  hqc : c.hqc.1 ≠ blk
  bLock : c.bLock ≠ blk
  bExec : c.bExec ≠ blk

theorem unreferenced (hkeys : c.Keyed ext.keys) (h : c.references ext.keys blk = 0) :
    c.Unreferenced blk := by
  unfold references at h
  have hsum := Nat.eq_zero_of_add_eq_zero_right (Nat.eq_zero_of_add_eq_zero_right h)
  have hfields := List.count_eq_zero.mp (Nat.eq_zero_of_add_eq_zero_left h)
  simp only [List.mem_cons, List.not_mem_nil, or_false, not_or] at hfields
  obtain ⟨hb0, hhqc, hlock, hexec⟩ := hfields
  have hentry {x : H} {b : Block H Sig} (hb : c.storage x = some b) :
      (c.parents x).count blk + (if c.qcRef x = some blk then 1 else 0) = 0 := by
    have hx : x ∈ ext.keys := hkeys x (by rw [hb]; rfl)
    exact List.sum_eq_zero_iff.mp hsum _ (List.mem_map_of_mem hx)
  refine ⟨fun hb => ?_, fun hb => ?_, Ne.symm hb0, Ne.symm hhqc, Ne.symm hlock, Ne.symm hexec⟩
  · have hcount := Nat.eq_zero_of_add_eq_zero_right (hentry hb)
    rw [parents_of hb] at hcount
    exact List.count_eq_zero.mp hcount
  · have hqc := Nat.eq_zero_of_add_eq_zero_left (hentry hb)
    intro hq
    rw [qcRef_of hb, if_pos hq] at hqc
    cases hqc

theorem modify_self (c : Core H Sig) (x : H) (f : Block H Sig → Block H Sig) :
    (c.modify x f).storage x = (c.storage x).map f := Function.update_self _ _ _

theorem modify_of_ne (c : Core H Sig) {x y : H} (f : Block H Sig → Block H Sig) (hy : y ≠ x) :
    (c.modify x f).storage y = c.storage y := Function.update_of_ne hy _ _

/-- The core without one block. -/
def without (c : Core H Sig) (blk : H) : Core H Sig :=
  { c with storage := Function.update c.storage blk none }

theorem without_self (c : Core H Sig) (blk : H) : (c.without blk).storage blk = none :=
  Function.update_self _ _ _

theorem without_of_ne (c : Core H Sig) {blk x : H} (hx : x ≠ blk) :
    (c.without blk).storage x = c.storage x := Function.update_of_ne hx _ _

theorem without_stored {x : H} {b : Block H Sig} (hb : (c.without blk).storage x = some b) :
    c.storage x = some b := by
  by_cases hx : x = blk
  · rw [hx, without_self] at hb
    cases hb
  · rwa [without_of_ne c hx] at hb

theorem without_delivered {x : H} (hx : x ≠ blk) (hd : c.delivered x = true) :
    (c.without blk).delivered x = true := by
  rw [delivered, without_of_ne c hx]
  exact hd

/-- A block that is released: nothing else refers to it. -/
theorem Tracks.release (t : p.Tracks u) (hd : p.delivered blk = true) (hfree : p.Unreferenced blk) :
    (p.without blk).Tracks u := by
  refine ⟨⟨fun hb y hy => ?_, fun {_ _ q} hb hq => ?_, ?_, ?_, ?_, ?_, fun hb => t.selfQc (without_stored hb)⟩,
    t.rest, fun x => ?_⟩
  · have hb₀ := without_stored hb
    refine without_delivered ?_ (t.parents hb₀ y hy)
    rintro rfl
    exact hfree.parents hb₀ hy
  · have hb₀ := without_stored hb
    have hne : q ≠ blk := by
      rintro rfl
      exact hfree.qcRef hb₀ hq
    rw [without_of_ne p hne]
    exact t.qcRef hb₀ hq
  · exact without_delivered hfree.b0 t.b0
  · exact without_delivered hfree.hqc t.hqc
  · exact without_delivered hfree.bLock t.bLock
  · exact without_delivered hfree.bExec t.bExec
  · by_cases hx : x = blk
    · rw [hx, without_self]
      obtain ⟨b, hb, hbd⟩ := stored_of_delivered (t.delivered hd)
      rw [hb]
      exact .released hbd
    · rw [without_of_ne p hx]
      exact t.blocks x

/-- A block that loses its certificate and some of its parents. -/
theorem Tracks.cut (t : p.Tracks u) (hd : p.delivered blk = true) {f : List H → List H}
    (hf : ∀ ps, f ps ⊆ ps) :
    (p.modify blk fun b => { b with qcRef := none, parents := f b.parents }).Tracks u := by
  obtain ⟨b', hb', hbd'⟩ := stored_of_delivered hd
  have hst : (p.modify blk fun b => { b with qcRef := none, parents := f b.parents }).storage blk =
      some { b' with qcRef := none, parents := f b'.parents } := by
    rw [modify_eq_put hb']
    exact put_self p blk _
  refine t.of_block blk (fun y hy => Function.update_of_ne hy _ _) (fun _ _ => rfl) t.rest rfl rfl rfl
    rfl ?_ ?_ ?_ ?_ ?_ ?_
  · rw [hst]
    obtain hb | ⟨b, hb, hrem⟩ := t.stored hb'
    · rw [hb]
      exact .remains ⟨rfl, hbd', fun _ => rfl, Or.inl rfl⟩
    · rw [hb]
      exact .remains ⟨hrem.data, hrem.delivered, hrem.height, Or.inl rfl⟩
  · rw [hst]
    exact fun _ => rfl
  · rw [delivered_of hst]
    exact fun _ => hbd'
  · intro b hb y hy
    rw [hst] at hb
    rw [← Option.some.inj hb] at hy
    exact t.parents hb' y (hf _ hy)
  · intro b q hb hq
    rw [hst] at hb
    rw [← Option.some.inj hb] at hq
    cases hq
  · intro b qc hb hq
    rw [hst] at hb
    rw [← Option.some.inj hb] at hq
    exact t.selfQc hb' hq

/-- A block on top of the stack is released when nothing but the stack and the storage refers to
it. -/
theorem tryReleaseBlk_cases (c : Core H Sig) (ext : Holders H) (start : H) (rest : List H) (blk : H) :
    c.tryReleaseBlk ext start rest blk = c ∨
      c.references ext.keys blk = 0 ∧ blk ≠ start ∧ blk ∉ rest ∧
        c.tryReleaseBlk ext start rest blk = c.without blk := by
  unfold tryReleaseBlk
  split
  · rename_i h
    have hrest := List.count_eq_zero.mp (Nat.eq_zero_of_add_eq_zero_left h)
    rw [List.mem_cons, not_or] at hrest
    have href := Nat.eq_zero_of_add_eq_zero_right (Nat.eq_zero_of_add_eq_zero_right h)
    exact Or.inr ⟨href, hrest.1, hrest.2, rfl⟩
  · exact Or.inl rfl

/-- What one turn does. -/
theorem pruneStep_cases (c : Core H Sig) (ext : Holders H) (start blk : H) (rest : List H) :
    c.parents blk = [] ∧ pruneStep ext start (c, blk :: rest) =
        (c.tryReleaseBlk ext start rest blk, rest) ∨
      ∃ parent ∈ c.parents blk, pruneStep ext start (c, blk :: rest) =
        (c.modify blk fun b => { b with qcRef := none, parents := b.parents.dropLast },
          parent :: blk :: rest) := by
  rw [pruneStep]
  cases hlast : (c.parents blk).getLast? with
  | none => exact Or.inl ⟨List.getLast?_eq_none_iff.mp hlast, rfl⟩
  | some parent => exact Or.inr ⟨parent, List.mem_of_getLast? hlast, rfl⟩

/-- A block without its certificate and some of its parents is still there. -/
theorem cut_delivered (c : Core H Sig) (blk : H) (f : List H → List H) (x : H) :
    (c.modify blk fun b => { b with qcRef := none, parents := f b.parents }).delivered x =
        c.delivered x ∧
      ((c.modify blk fun b => { b with qcRef := none, parents := f b.parents }).storage x).isSome =
        (c.storage x).isSome := by
  by_cases hx : x = blk
  · subst hx
    rw [delivered, delivered, modify_self, Option.map_map, Option.isSome_map]
    exact ⟨rfl, rfl⟩
  · rw [delivered, delivered, modify_of_ne c _ hx]
    exact ⟨rfl, rfl⟩

/-- Each turn takes an edge or a block off the stack. -/
theorem pruneStep_lt (hkeyed : p.Keyed ext.keys) (start blk : H) (rest : List H) :
    2 * (pruneStep ext start (p, blk :: rest)).1.edgeCount ext.keys +
        (pruneStep ext start (p, blk :: rest)).2.length <
      2 * p.edgeCount ext.keys + (blk :: rest).length := by
  obtain ⟨hnil, heq⟩ | ⟨parent, hparent, heq⟩ := pruneStep_cases p ext start blk rest
  · have hsame : (p.tryReleaseBlk ext start rest blk).edgeCount ext.keys =
        p.edgeCount ext.keys := by
      obtain hkept | ⟨_, _, _, hreleased⟩ := tryReleaseBlk_cases p ext start rest blk
      · rw [hkept]
      · have hparents (x : H) : (p.without blk).parents x = p.parents x := by
          by_cases hx : x = blk
          · rw [hx, hnil, parents, without_self]
            rfl
          · rw [parents, parents, without_of_ne p hx]
        rw [hreleased, edgeCount, edgeCount]
        simp only [hparents]
    rw [heq]
    dsimp only
    rw [hsame, List.length_cons]
    omega
  · obtain ⟨b, hb, hmem⟩ := mem_parents hparent
    have hself : (p.modify blk fun b => { b with
        qcRef := none, parents := b.parents.dropLast }).parents blk = b.parents.dropLast := by
      rw [modify_eq_put hb]
      exact parents_of (put_self p blk _)
    have hother {x : H} (hx : x ≠ blk) : (p.modify blk fun b => { b with
        qcRef := none, parents := b.parents.dropLast }).parents x = p.parents x := by
      rw [parents, parents, modify_of_ne p _ hx]
    have hpos := List.length_pos_of_mem hmem
    have hless : (p.modify blk fun b => { b with
        qcRef := none, parents := b.parents.dropLast }).edgeCount ext.keys <
          p.edgeCount ext.keys := by
      refine List.sum_lt_sum _ _ (fun x _ => ?_) ⟨blk, hkeyed blk (by rw [hb]; rfl), ?_⟩
      · by_cases hx : x = blk
        · rw [hx, hself, parents_of hb, List.length_dropLast]
          omega
        · rw [hother hx]
      · rw [hself, parents_of hb, List.length_dropLast]
        omega
    rw [heq]
    simp only [List.length_cons]
    omega

/-- The rule for the loop: it ends, and what each turn keeps holds at the end. -/
theorem pruneLoop_rule {I : Core H Sig → List H → Prop}
    (hkeyed : ∀ {p stack}, I p stack → p.Keyed ext.keys)
    (hstep : ∀ {p blk rest}, I p (blk :: rest) →
      I (pruneStep ext start (p, blk :: rest)).1 (pruneStep ext start (p, blk :: rest)).2)
    {fuel : Nat} (h : I p stack) (hfuel : 2 * p.edgeCount ext.keys + stack.length ≤ fuel) :
    ∃ p', pruneLoop ext start fuel (p, stack) = some p' ∧ I p' [] := by
  induction fuel generalizing p stack with
  | zero =>
    cases stack with
    | nil => exact ⟨p, by rw [pruneLoop], h⟩
    | cons blk rest =>
      rw [List.length_cons] at hfuel
      omega
  | succ fuel ih =>
    cases stack with
    | nil => exact ⟨p, by rw [pruneLoop], h⟩
    | cons blk rest =>
      have hlt := pruneStep_lt (hkeyed h) start blk rest
      obtain ⟨p', hloop, hleft⟩ := ih (hstep h) (by omega)
      exact ⟨p', hloop, hleft⟩

theorem edgeCount_uncertify (c : Core H Sig) (start : H) (keys : List H) :
    (c.modify start fun b => { b with qcRef := none }).edgeCount keys = c.edgeCount keys := by
  have hparents (x : H) :
      (c.modify start fun b => { b with qcRef := none }).parents x = c.parents x := by
    by_cases hx : x = start
    · rw [hx, parents, parents, modify_self, Option.map_map]
      rfl
    · rw [parents, parents, modify_of_ne c _ hx]
  rw [edgeCount, edgeCount]
  simp only [hparents]

theorem prune_of_none (ext : Holders H) {staleness : Nat}
    (hstart : p.pruneStart staleness p.bExec = none) : p.prune ext staleness = some p := by
  unfold Core.prune
  rw [hstart]

/-- The rule for `prune`, when the chain is long enough. -/
theorem prune_rule {I : Core H Sig → List H → Prop}
    (hkeyed : ∀ {p stack}, I p stack → p.Keyed ext.keys)
    (hstep : ∀ {p blk rest}, I p (blk :: rest) →
      I (pruneStep ext start (p, blk :: rest)).1 (pruneStep ext start (p, blk :: rest)).2)
    {staleness : Nat} (hstart : p.pruneStart staleness p.bExec = some start)
    (h : I (p.modify start fun b => { b with qcRef := none }) [start]) :
    ∃ p', p.prune ext staleness = some p' ∧ I p' [] := by
  unfold Core.prune
  rw [hstart]
  refine pruneLoop_rule (I := I) hkeyed hstep h ?_
  rw [edgeCount_uncertify, List.length_singleton]

namespace Unwinding

/-- Some edges of a delivered block are cut off. -/
theorem cut (h : p.Unwinding u ext start stack) (hd : p.delivered blk = true)
    {f : List H → List H} (hf : ∀ ps, f ps ⊆ ps) :
    (p.modify blk fun b => { b with qcRef := none, parents := f b.parents }).Unwinding u ext start
      stack := by
  have hcut := cut_delivered p blk f
  refine ⟨h.tracks.cut hd hf, fun x hx => ?_, ?_, fun x hx => ?_⟩
  · rw [(hcut x).2] at hx
    exact h.keyed x hx
  · rw [(hcut start).1, h.start]
  · rw [(hcut x).1, h.stack x hx]

/-- A block that only the stack refers to is released. -/
theorem release (h : p.Unwinding u ext start (blk :: rest)) (href : p.references ext.keys blk = 0)
    (hstart : blk ≠ start) (hrest : blk ∉ rest) : (p.without blk).Unwinding u ext start rest := by
  have hd := h.stack blk (List.mem_cons_self ..)
  refine ⟨h.tracks.release hd (unreferenced h.keyed href), fun x hx => ?_, ?_, fun x hx => ?_⟩
  · obtain ⟨b, hb⟩ := Option.isSome_iff_exists.mp hx
    exact h.keyed x (by rw [without_stored hb]; rfl)
  · exact without_delivered hstart.symm h.start
  · have hne : x ≠ blk := by
      rintro rfl
      exact hrest hx
    exact without_delivered hne (h.stack x (List.mem_cons_of_mem _ hx))

/-- One turn. -/
theorem step (h : p.Unwinding u ext start (blk :: rest)) :
    (pruneStep ext start (p, blk :: rest)).1.Unwinding u ext start
      (pruneStep ext start (p, blk :: rest)).2 := by
  have hd := h.stack blk (List.mem_cons_self ..)
  obtain ⟨_, heq⟩ | ⟨parent, hparent, heq⟩ := pruneStep_cases p ext start blk rest
  · rw [heq]
    obtain hkept | ⟨href, hstart, hrest, hreleased⟩ := tryReleaseBlk_cases p ext start rest blk
    · rw [hkept]
      exact ⟨h.tracks, h.keyed, h.start, fun x hx => h.stack x (List.mem_cons_of_mem _ hx)⟩
    · rw [hreleased]
      exact h.release href hstart hrest
  · rw [heq]
    have hcut := h.cut hd (f := List.dropLast) fun ps => List.dropLast_subset ps
    obtain ⟨b, hb, hmem⟩ := mem_parents hparent
    refine ⟨hcut.tracks, hcut.keyed, hcut.start, fun x hx => ?_⟩
    obtain rfl | hx := List.mem_cons.mp hx
    · rw [(cut_delivered p blk _ x).1]
      exact h.tracks.parents hb x hmem
    · exact hcut.stack x hx

end Unwinding

omit [DecidableEq H] in
theorem pruneStart_delivered (t : p.Tracks u) {staleness : Nat} {x : H} (hd : p.delivered x = true)
    (h : p.pruneStart staleness x = some start) : p.delivered start = true := by
  induction staleness generalizing x with
  | zero =>
    rw [pruneStart] at h
    rw [← Option.some.inj h, hd]
  | succ n ih =>
    rw [pruneStart] at h
    obtain ⟨y, hy, hrec⟩ := Option.bind_eq_some_iff.mp h
    obtain ⟨b, hb, hmem⟩ := mem_parents (List.mem_of_mem_head? hy)
    exact ih (t.parents hb y hmem) hrec

/-- `prune` returns, and what it leaves tracks the core that has not been pruned. -/
theorem Tracks.prune (t : p.Tracks u) (ext : Holders H) (hkeys : p.Keyed ext.keys)
    (staleness : Nat) : ∃ p', p.prune ext staleness = some p' ∧ p'.Tracks u ∧ p'.Keyed ext.keys := by
  cases hstart : p.pruneStart staleness p.bExec with
  | none => exact ⟨p, prune_of_none ext hstart, t, hkeys⟩
  | some start =>
    have hd := pruneStart_delivered t t.bExec hstart
    have h₀ : p.Unwinding u ext start [start] := by
      refine ⟨t, hkeys, hd, fun x hx => ?_⟩
      rw [List.mem_singleton.mp hx, hd]
    have hcut := h₀.cut hd (f := fun ps => ps) fun ps => List.Subset.refl ps
    obtain ⟨p', hprune, hleft⟩ := prune_rule (I := fun p stack => p.Unwinding u ext start stack)
      (fun h => h.keyed) (fun h => h.step) hstart hcut
    exact ⟨p', hprune, hleft.tracks, hleft.keyed⟩

end Core
end LibHotStuff
