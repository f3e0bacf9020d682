import LibHotStuff.Library.Chain
import LibHotStuff.Model.Replica

namespace LibHotStuff

open Chain

namespace Primitives

variable {H Sig : Type} (P : Primitives H Sig)

/-- The fields of the block with a given hash; genesis has none that count. -/
noncomputable def content (h : H) : Option (BlockData H Sig) :=
  open Classical in
  if hd : h ≠ P.genesisHash ∧ ∃ d, P.hashBlock d = h then some hd.2.choose else none

/-- The first parent. -/
noncomputable def parent (h : H) : Option H := (P.content h).bind (·.parentHashes.head?)

/-- The block that the certificate in a block is for; genesis certifies itself. -/
noncomputable def justify (h : H) : H :=
  ((P.content h).map (·.qc.objHash)).getD P.genesisHash

/-- The first-parent distance to genesis. -/
noncomputable def depth (h : H) : Nat := Chain.depth P.parent P.genesisHash h

theorem content_eq {h : H} {d : BlockData H Sig} (hd : P.hashBlock d = h)
    (hne : h ≠ P.genesisHash) : P.content h = some d := by
  have hex : h ≠ P.genesisHash ∧ ∃ d, P.hashBlock d = h := ⟨hne, d, hd⟩
  rw [content, dif_pos hex]
  exact congrArg some (P.hashBlock_injective (hex.2.choose_spec.trans hd.symm))

@[simp] theorem content_genesis : P.content P.genesisHash = none := by
  rw [content, dif_neg]
  exact fun h => h.1 rfl

@[simp] theorem parent_genesis : P.parent P.genesisHash = none := by
  simp [parent]

@[simp] theorem justify_genesis : P.justify P.genesisHash = P.genesisHash := by
  simp [justify]

@[simp] theorem depth_genesis : P.depth P.genesisHash = 0 :=
  depth_root P.parent_genesis

end Primitives

variable {H Sig : Type} {P : Primitives H Sig}

/-- The blocks in storage form the part of the block graph that a replica knows. -/
structure Core.Dag (P : Primitives H Sig) (c : Core H Sig) : Prop where
  b0 : c.b0 = P.genesisHash
  genesis : ∃ b, c.storage P.genesisHash = some b ∧ b.parents = [] ∧
    b.qcRef = some P.genesisHash ∧ b.height = 0 ∧ b.delivered = true
  hashed : ∀ {h b}, c.storage h = some b → h ≠ P.genesisHash → P.hashBlock b.toBlockData = h
  undelivered : ∀ {h b}, c.storage h = some b → b.delivered = false →
    b.qcRef = none ∧ b.height = 0
  linked : ∀ {h b}, c.storage h = some b → h ≠ P.genesisHash → b.delivered = true →
    b.parents = b.parentHashes ∧ b.qcRef = some b.qc.objHash ∧
      ∃ p, b.parentHashes.head? = some p ∧ c.delivered p = true ∧ b.height = c.height p + 1

namespace Core

variable {c c' : Core H Sig} {h : H} {b : Block H Sig}

theorem height_of (hb : c.storage h = some b) : c.height h = b.height := by simp [height, hb]

theorem delivered_of (hb : c.storage h = some b) : c.delivered h = b.delivered := by
  simp [delivered, hb]

theorem decided_of (hb : c.storage h = some b) : c.decided h = b.decision := by
  simp [decided, hb]

theorem qcRef_of (hb : c.storage h = some b) : c.qcRef h = b.qcRef := by simp [qcRef, hb]

theorem parent0_of (hb : c.storage h = some b) : c.parent0 h = b.parents.head? := by
  simp [parent0, hb]

theorem stored_of_delivered (h' : c.delivered h = true) :
    ∃ b, c.storage h = some b ∧ b.delivered = true := by
  cases hb : c.storage h with
  | none => simp [delivered, hb] at h'
  | some b => exact ⟨b, rfl, by rwa [delivered_of hb] at h'⟩

theorem walkDown_congr (hs : c'.storage = c.storage) (k fuel : Nat) (h : H) :
    c'.walkDown k fuel h = c.walkDown k fuel h := by
  induction fuel generalizing h with
  | zero => rfl
  | succ fuel ih =>
    have hh (x : H) : c'.height x = c.height x := by rw [height, height, hs]
    have hp (x : H) : c'.parent0 x = c.parent0 x := by rw [parent0, parent0, hs]
    simp only [walkDown, hh, hp, ih]

namespace Dag

theorem delivered_genesis (hc : c.Dag P) : c.delivered P.genesisHash = true := by
  obtain ⟨b, hb, _, _, _, hd⟩ := hc.genesis
  rw [delivered_of hb, hd]

theorem height_genesis (hc : c.Dag P) : c.height P.genesisHash = 0 := by
  obtain ⟨b, hb, _, _, h0, _⟩ := hc.genesis
  rw [height_of hb, h0]

/-- A delivered block other than genesis has the parent and the certificate of its fields. -/
theorem delivered_fields (hc : c.Dag P) (hd : c.delivered h = true) (hne : h ≠ P.genesisHash) :
    ∃ p, P.parent h = some p ∧ c.parent0 h = some p ∧ c.delivered p = true ∧
      c.height h = c.height p + 1 ∧ c.qcRef h = some (P.justify h) := by
  obtain ⟨b, hb, hbd⟩ := stored_of_delivered hd
  obtain ⟨hpar, hqc, p, hhead, hpd, hh⟩ := hc.linked hb hne hbd
  have hcontent := P.content_eq (hc.hashed hb hne) hne
  refine ⟨p, ?_, ?_, hpd, ?_, ?_⟩
  · simp [Primitives.parent, hcontent, hhead]
  · rw [parent0_of hb, hpar, hhead]
  · rw [height_of hb, hh]
  · simp [qcRef_of hb, hqc, Primitives.justify, hcontent]

theorem parent0_eq (hc : c.Dag P) (hd : c.delivered h = true) : c.parent0 h = P.parent h := by
  by_cases hne : h = P.genesisHash
  · obtain ⟨b, hb, hpar, _⟩ := hc.genesis
    rw [hne, parent0_of hb, hpar, P.parent_genesis]
    rfl
  · obtain ⟨p, hp, hp0, _⟩ := hc.delivered_fields hd hne
    rw [hp, hp0]

theorem qcRef_eq (hc : c.Dag P) (hd : c.delivered h = true) :
    c.qcRef h = some (P.justify h) := by
  by_cases hne : h = P.genesisHash
  · obtain ⟨b, hb, _, hqc, _⟩ := hc.genesis
    rw [hne, qcRef_of hb, hqc, P.justify_genesis]
  · exact (hc.delivered_fields hd hne).choose_spec.2.2.2.2

theorem delivered_parent (hc : c.Dag P) (hd : c.delivered h = true) {p : H}
    (hp : P.parent h = some p) : c.delivered p = true := by
  have hne : h ≠ P.genesisHash := by
    rintro rfl
    simp at hp
  obtain ⟨q, hq, _, hqd, _⟩ := hc.delivered_fields hd hne
  rw [hq] at hp
  rwa [← Option.some.inj hp]

theorem not_delivered (hc : c.Dag P) (hd : c.delivered h = false) :
    c.qcRef h = none ∧ c.height h = 0 := by
  cases hb : c.storage h with
  | none => simp [qcRef, height, hb]
  | some b =>
    rw [delivered_of hb] at hd
    obtain ⟨hq, hh⟩ := hc.undelivered hb hd
    rw [qcRef_of hb, height_of hb]
    exact ⟨hq, hh⟩

theorem delivered_of_height (hc : c.Dag P) (hh : 0 < c.height h) : c.delivered h = true := by
  by_contra hd
  have := (hc.not_delivered (Bool.eq_false_iff.mpr hd)).2
  omega

/-- Delivered blocks lead down to genesis, and `height` counts the steps. -/
theorem up_height (hc : c.Dag P) (hd : c.delivered h = true) :
    up P.parent (c.height h) h = some P.genesisHash := by
  induction hn : c.height h generalizing h with
  | zero =>
    by_cases hne : h = P.genesisHash
    · rw [hne, up_zero]
    · obtain ⟨p, _, _, _, hh, _⟩ := hc.delivered_fields hd hne
      omega
  | succ n ih =>
    have hne : h ≠ P.genesisHash := by
      rintro rfl
      rw [hc.height_genesis] at hn
      omega
    obtain ⟨p, hp, _, hpd, hh, _⟩ := hc.delivered_fields hd hne
    rw [up_succ, hp]
    exact ih hpd (by omega)

theorem onChain_genesis (hc : c.Dag P) (hd : c.delivered h = true) :
    OnChain P.parent h P.genesisHash :=
  ⟨_, hc.up_height hd⟩

theorem height_eq (hc : c.Dag P) (hd : c.delivered h = true) : c.height h = P.depth h :=
  (depth_eq P.parent_genesis (hc.up_height hd)).symm

theorem height_le (hc : c.Dag P) (h : H) : c.height h ≤ P.depth h := by
  cases hd : c.delivered h with
  | true => exact Nat.le_of_eq (hc.height_eq hd)
  | false =>
    rw [(hc.not_delivered hd).2]
    exact Nat.zero_le _

/-- Ancestors of delivered blocks are delivered. -/
theorem delivered_onChain (hc : c.Dag P) (hd : c.delivered h = true) {a : H}
    (ha : OnChain P.parent h a) : c.delivered a = true := by
  obtain ⟨k, hk⟩ := ha
  induction k generalizing h with
  | zero => rwa [← Option.some.inj hk]
  | succ k ih =>
    rw [up_succ] at hk
    obtain ⟨p, hp, hu⟩ := Option.bind_eq_some_iff.mp hk
    exact ih (hc.delivered_parent hd hp) hu

/-- The walk down from a delivered block ends at its ancestor of that height. -/
theorem walkDown_eq (hc : c.Dag P) (hd : c.delivered h = true) (k : Nat) {fuel : Nat}
    (hf : c.height h < fuel) :
    ∃ e, c.walkDown k fuel h = .ok (path P.parent (c.height h - k) h, e) ∧
      up P.parent (c.height h - k) h = some e := by
  induction fuel generalizing h with
  | zero => omega
  | succ fuel ih =>
    by_cases hk : k < c.height h
    · have hne : h ≠ P.genesisHash := by
        rintro rfl
        rw [hc.height_genesis] at hk
        omega
      obtain ⟨p, hp, hp0, hpd, hh, _⟩ := hc.delivered_fields hd hne
      obtain ⟨e, he, hu⟩ := ih hpd (by omega)
      have hstep : c.height h - k = (c.height p - k) + 1 := by omega
      refine ⟨e, ?_, ?_⟩
      · rw [walkDown, if_pos hk, hp0]
        simp only [he, hstep, path, hp]
        rfl
      · rw [hstep, up_succ, hp]
        exact hu
    · have h0 : c.height h - k = 0 := by omega
      exact ⟨h, by rw [walkDown, if_neg hk, h0]; rfl, by rw [h0, up_zero]⟩

/-- The walk down to the height of a delivered block ends there when it is on the chain. -/
theorem walkDown_end (hc : c.Dag P) {a : H} (ha : c.delivered a = true)
    (hd : c.delivered h = true) : ∃ q e, c.walkDown (c.height a) (c.height h + 1) h = .ok (q, e) ∧
      (e = a ↔ OnChain P.parent h a) := by
  obtain ⟨e, he, hu⟩ := hc.walkDown_eq hd (c.height a) (Nat.lt_succ_self _)
  refine ⟨_, e, he, ?_⟩
  rw [hc.height_eq ha, hc.height_eq hd] at hu
  constructor
  · rintro rfl
    exact ⟨_, hu⟩
  · intro hon
    have hua := (hon.up_sub P.parent_genesis (hc.onChain_genesis hd)).2.2
    rw [Primitives.depth, Primitives.depth, hua] at hu
    exact (Option.some.inj hu).symm

/-- `check_ancestry` finds out whether one delivered block is on the chain of another. -/
theorem checkAncestry_iff [DecidableEq H] (hc : c.Dag P) {a : H} (ha : c.delivered a = true)
    (hd : c.delivered h = true) : c.checkAncestry a h = true ↔ OnChain P.parent h a := by
  obtain ⟨q, e, he, hiff⟩ := hc.walkDown_end ha hd
  rw [checkAncestry, he, ← hiff]
  simp

end Dag

end Core

/-- What `on_deliver_blk` settles of a block: the decision and the votes are left out. -/
def Block.dag (b : Block H Sig) : Block H Sig :=
  { b with decision := false, selfQc := none, voted := [] }

/-- The blocks of two states differ in decisions and votes only. -/
def Core.SameDag (c c' : Core H Sig) : Prop :=
  c'.b0 = c.b0 ∧ ∀ h, (c'.storage h).map Block.dag = (c.storage h).map Block.dag

namespace Core.SameDag

variable {c c' c'' : Core H Sig} {h : H}

theorem refl (c : Core H Sig) : c.SameDag c := ⟨rfl, fun _ => rfl⟩

theorem symm (hs : c.SameDag c') : c'.SameDag c := ⟨hs.1.symm, fun h => (hs.2 h).symm⟩

theorem trans (hs : c.SameDag c') (hs' : c'.SameDag c'') : c.SameDag c'' :=
  ⟨hs'.1.trans hs.1, fun h => (hs'.2 h).trans (hs.2 h)⟩

theorem of_storage (hb : c'.b0 = c.b0) (hs : c'.storage = c.storage) : c.SameDag c' :=
  ⟨hb, fun h => by rw [hs]⟩

/-- Writing a decision or votes into one block. -/
theorem modify [DecidableEq H] {f : Block H Sig → Block H Sig} (hf : ∀ b, (f b).dag = b.dag) :
    c.SameDag (c.modify h f) := by
  refine ⟨rfl, fun x => ?_⟩
  by_cases hx : x = h
  · subst hx
    simp [Core.modify, Function.comp_def, hf]
  · simp [Core.modify, Function.update_of_ne hx]

theorem stored (hs : c.SameDag c') {b' : Block H Sig} (hb : c'.storage h = some b') :
    ∃ b d q v, c.storage h = some b ∧ b' = { b with decision := d, selfQc := q, voted := v } := by
  have heq := hs.2 h
  rw [hb] at heq
  obtain ⟨b, hb', he⟩ := Option.map_eq_some_iff.mp heq.symm
  refine ⟨b, b'.decision, b'.selfQc, b'.voted, hb', ?_⟩
  cases b
  cases b'
  simpa [Block.dag] using he.symm

/-- Any part of a block but its decision and votes is the same. -/
theorem project {γ : Type} (hs : c.SameDag c') (f : Block H Sig → γ) (hf : ∀ b, f b.dag = f b) :
    (c'.storage h).map f = (c.storage h).map f := by
  have hcomp : f = f ∘ Block.dag := funext fun b => (hf b).symm
  rw [hcomp, ← Option.map_map, ← Option.map_map, hs.2 h]

theorem height (hs : c.SameDag c') : c'.height h = c.height h := by
  rw [Core.height, Core.height, hs.project _ fun _ => rfl]

theorem delivered (hs : c.SameDag c') : c'.delivered h = c.delivered h := by
  rw [Core.delivered, Core.delivered, hs.project _ fun _ => rfl]

theorem dag (hs : c.SameDag c') (hc : c.Dag P) : c'.Dag P where
  b0 := by rw [hs.1, hc.b0]
  genesis := by
    obtain ⟨b, hb, hfields⟩ := hc.genesis
    obtain ⟨b', _, _, _, hb', rfl⟩ := hs.symm.stored hb
    exact ⟨b', hb', hfields⟩
  hashed := by
    intro h b' hb' hne
    obtain ⟨b, _, _, _, hb, rfl⟩ := hs.stored hb'
    have hdata := hc.hashed hb hne
    exact hdata
  undelivered := by
    intro h b' hb' hd
    obtain ⟨b, _, _, _, hb, rfl⟩ := hs.stored hb'
    have hnone := hc.undelivered hb hd
    exact hnone
  linked := by
    intro h b' hb' hne hd
    obtain ⟨b, _, _, _, hb, rfl⟩ := hs.stored hb'
    obtain ⟨hpar, hqc, p, hhead, hpd, hh⟩ := hc.linked hb hne hd
    exact ⟨hpar, hqc, p, hhead, by rwa [hs.delivered], by rw [hs.height, ← hh]⟩

end Core.SameDag
end LibHotStuff
