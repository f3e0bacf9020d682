import LibHotStuff.Library.Chain

/-! Votes under a lock. Blocks form chains and each block names a certified block that
justifies it; a voter votes for a block while it holds a lock on another. The rules below
make every certified block extend a block that starts a three-chain. -/

namespace LibHotStuff

open Chain

/-- The votes of a run, with the lock that the voter held at each of them. -/
structure LockedVotes (β ρ : Type*) where
  parent : β → Option β
  genesis : β
  justify : β → β
  Voted : ρ → β → β → Prop
  Certified : β → Prop
  genesis_parent : parent genesis = none
  rooted : ∀ {r b l}, Voted r b l → OnChain parent b genesis
  /-- Two certified blocks share a voter, and one that voted for the second before it was
  certified. -/
  intersect : ∀ {a b}, Certified a → Certified b →
    ∃ r l l', Voted r a l ∧ Voted r b l' ∧ l' ≠ b
  unique : ∀ {r a b l l'}, Voted r a l → Voted r b l' →
    depth parent genesis a = depth parent genesis b → a = b
  /-- Having voted for `a`, a voter is locked at least as high as the start of its two-chain. -/
  locked : ∀ {r a b c d l l'}, Voted r a l → Voted r b l' →
    depth parent genesis a < depth parent genesis b →
    parent a = some c → justify a = c → parent c = some d → justify c = d →
    depth parent genesis d ≤ depth parent genesis l'
  /-- A vote extends the lock, or is for a block that extends a justification above it. -/
  rule : ∀ {r b l}, Voted r b l → OnChain parent b l ∨
    depth parent genesis l < depth parent genesis (justify b) ∧ OnChain parent b (justify b)
  lock_certified : ∀ {r b l}, Voted r b l → Certified l ∨ l = genesis
  justified : ∀ {r b l}, Voted r b l → Certified (justify b) ∨ justify b = genesis
  justify_lower : ∀ {b}, Certified b →
    depth parent genesis (justify b) < depth parent genesis b

namespace LockedVotes

variable {β ρ : Type*} (V : LockedVotes β ρ)

/-- `b` and its next two descendants, each justified by its parent, the last one certified. -/
def ThreeChain (b : β) : Prop :=
  ∃ b' b'', V.parent b' = some b ∧ V.justify b' = b ∧ V.parent b'' = some b' ∧
    V.justify b'' = b' ∧ V.Certified b''

variable {V}

theorem Certified.rooted {b : β} (h : V.Certified b) : OnChain V.parent b V.genesis := by
  obtain ⟨_, _, _, hv, _⟩ := V.intersect h h
  exact V.rooted hv

/-- At most one certified block per depth. -/
theorem certified_unique {a b : β} (ha : V.Certified a) (hb : V.Certified b)
    (h : depth V.parent V.genesis a = depth V.parent V.genesis b) : a = b := by
  obtain ⟨_, _, _, hva, hvb, _⟩ := V.intersect ha hb
  exact V.unique hva hvb h

theorem Certified.justify {b : β} (h : V.Certified b) :
    V.Certified (V.justify b) ∨ V.justify b = V.genesis := by
  obtain ⟨_, _, _, hv, _⟩ := V.intersect h h
  exact V.justified hv

/-- Every certified block that is at least as deep as the start of a three-chain extends it. -/
theorem ThreeChain.onChain {b w : β} (h : V.ThreeChain b) (hw : V.Certified w)
    (hle : depth V.parent V.genesis b ≤ depth V.parent V.genesis w) : OnChain V.parent w b := by
  obtain ⟨b', b'', hp', hj', hp'', hj'', hc''⟩ := h
  have hne' : b' ≠ V.genesis := by
    rintro rfl
    rw [V.genesis_parent] at hp'
    cases hp'
  have hc' : V.Certified b' := by
    have hj := Certified.justify hc''
    rw [hj''] at hj
    exact hj.resolve_right hne'
  have hr' := Certified.rooted hc'
  have hb := ((OnChain.of_parent hp').up_sub V.genesis_parent hr').1
  have hd' := depth_parent V.genesis_parent hb hp'
  have hd'' := depth_parent V.genesis_parent hr' hp''
  rcases eq_or_ne b V.genesis with rfl | hbne
  · exact Certified.rooted hw
  have hcb : V.Certified b := by
    have hj := Certified.justify hc'
    rw [hj'] at hj
    exact hj.resolve_right hbne
  -- induction on the depth of the certified block
  induction hn : depth V.parent V.genesis w using Nat.strongRecOn generalizing w with
  | ind n ih =>
    subst hn
    have step {x : β} (hx : V.Certified x ∨ x = V.genesis)
        (hlow : depth V.parent V.genesis b ≤ depth V.parent V.genesis x)
        (hlt : depth V.parent V.genesis x < depth V.parent V.genesis w)
        (hwx : OnChain V.parent w x) : OnChain V.parent w b := by
      rcases hx with hx | rfl
      · exact hwx.trans (ih _ hlt hx hlow rfl)
      · rw [depth_root V.genesis_parent] at hlow
        exact absurd (eq_root_of_depth V.genesis_parent hb (by omega)) hbne
    by_cases hlow : depth V.parent V.genesis w ≤ depth V.parent V.genesis b''
    · -- one of the three blocks of the chain
      have hcases : depth V.parent V.genesis w = depth V.parent V.genesis b ∨
          depth V.parent V.genesis w = depth V.parent V.genesis b' ∨
          depth V.parent V.genesis w = depth V.parent V.genesis b'' := by omega
      rcases hcases with he | he | he
      · rw [certified_unique hw hcb he]
        exact OnChain.refl b
      · rw [certified_unique hw hc' he]
        exact OnChain.of_parent hp'
      · rw [certified_unique hw hc'' he]
        exact (OnChain.of_parent hp'').trans (OnChain.of_parent hp')
    · -- above the chain: a common voter was locked on `b` or above
      obtain ⟨r, _, l, hv'', hvw, hlw⟩ := V.intersect hc'' hw
      have hlock := V.locked hv'' hvw (by omega) hp'' hj'' hp' hj'
      rcases V.rule hvw with hext | ⟨hlj, hext⟩
      · have hdl := (hext.up_sub V.genesis_parent (V.rooted hvw)).2.1
        have hlt : depth V.parent V.genesis l < depth V.parent V.genesis w := by
          refine Nat.lt_of_le_of_ne hdl fun he => hlw ?_
          exact (hext.eq_of_depth V.genesis_parent (V.rooted hvw) he.symm).symm
        exact step (V.lock_certified hvw) hlock hlt hext
      · exact step (V.justified hvw) (by omega) (V.justify_lower hw) hext

/-- Two blocks that start three-chains lie on one chain. -/
theorem ThreeChain.comparable {a b : β} (ha : V.ThreeChain a) (hb : V.ThreeChain b) :
    OnChain V.parent a b ∨ OnChain V.parent b a := by
  have certified {x : β} (h : V.ThreeChain x) :
      V.Certified x ∨ x = V.genesis := by
    obtain ⟨b', b'', hp', hj', hp'', hj'', hc''⟩ := h
    have hne' : b' ≠ V.genesis := by
      rintro rfl
      rw [V.genesis_parent] at hp'
      cases hp'
    have hj := Certified.justify hc''
    rw [hj''] at hj
    have hc' := hj.resolve_right hne'
    have := Certified.justify hc'
    rwa [hj'] at this
  rcases certified ha with hca | rfl
  · rcases certified hb with hcb | rfl
    · rcases Nat.le_total (depth V.parent V.genesis a) (depth V.parent V.genesis b) with h | h
      · exact Or.inr (ha.onChain hcb h)
      · exact Or.inl (hb.onChain hca h)
    · exact Or.inl (Certified.rooted hca)
  · obtain ⟨b', b'', hp', _, hp'', _, hc''⟩ := hb
    refine Or.inr ?_
    have hr'' := Certified.rooted hc''
    have hb'' := (OnChain.of_parent hp'').trans (OnChain.of_parent hp')
    exact hb''.linear V.genesis_parent hr'' hr'' (by simp [depth_root V.genesis_parent])

end LockedVotes
end LibHotStuff
