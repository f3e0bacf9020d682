import Mathlib

/-! Quorums of `n - f` out of `n` members of which at most `f` are faulty. -/

namespace LibHotStuff.Quorum

/-- Two sets of at least `n - f` of `n > 3 f` members share one outside a faulty set of `f`. -/
theorem exists_mem_inter {n f : Nat} {faulty A B : Finset Nat} (hn : 3 * f < n)
    (hf : faulty.card ≤ f) (hA : A ⊆ Finset.range n) (hB : B ⊆ Finset.range n)
    (cA : n - f ≤ A.card) (cB : n - f ≤ B.card) : ∃ r ∈ A ∩ B, r ∉ faulty := by
  by_contra hno
  push Not at hno
  have hsub : A ∩ B ⊆ faulty := fun r hr => hno r hr
  have hi : (A ∩ B).card ≤ f := (Finset.card_le_card hsub).trans hf
  have hu : (A ∪ B).card ≤ n := by
    simpa using Finset.card_le_card (Finset.union_subset hA hB)
  have hsum := Finset.card_union_add_card_inter A B
  omega

end LibHotStuff.Quorum
