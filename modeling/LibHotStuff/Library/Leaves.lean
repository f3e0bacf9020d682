import Mathlib

/-! The leaves of a graph that grows downward: a node enters with the nodes that it points to, and
takes their place among the leaves. -/

namespace LibHotStuff

variable {α : Type*}

/-- The nodes have edges to nodes, and `leaves` are those that none points to. -/
structure Leaves (edges : α → Option (List α)) (leaves : List α) : Prop where
  closed : ∀ {x ps}, edges x = some ps → ∀ p ∈ ps, (edges p).isSome
  nodup : leaves.Nodup
  mem_iff : ∀ x, x ∈ leaves ↔ (edges x).isSome ∧ ∀ y ps, edges y = some ps → x ∉ ps

namespace Leaves

variable {edges edges' : α → Option (List α)} {leaves : List α} {root x : α} {ps : List α}

/-- A graph of one node without edges. -/
theorem single (hroot : edges root = some []) (hother : ∀ x, x ≠ root → edges x = none) :
    Leaves edges [root] := by
  have honly {y : α} {qs : List α} (hy : edges y = some qs) : y = root ∧ qs = [] := by
    by_cases heq : y = root
    · subst heq
      exact ⟨rfl, Option.some.inj (hy.symm.trans hroot)⟩
    · rw [hother y heq] at hy
      cases hy
  refine ⟨fun hy p hp => ?_, List.nodup_singleton root, fun y => ?_⟩
  · rw [(honly hy).2] at hp
    cases hp
  · rw [List.mem_singleton]
    constructor
    · rintro rfl
      refine ⟨by rw [hroot]; rfl, fun z qs hz => ?_⟩
      rw [(honly hz).2]
      exact List.not_mem_nil
    · rintro ⟨hsome, _⟩
      obtain ⟨qs, hqs⟩ := Option.isSome_iff_exists.mp hsome
      exact (honly hqs).1

variable [DecidableEq α]

/-- The nodes that a node points to are no leaves. -/
theorem filter_eq (h : Leaves edges leaves) (hx : edges x = some ps) :
    leaves.filter (· ∉ ps) = leaves := by
  rw [List.filter_eq_self]
  intro y hy
  exact decide_eq_true (((h.mem_iff y).mp hy).2 x ps hx)

/-- A node enters. -/
theorem insert (h : Leaves edges leaves) (hnew : edges x = none)
    (hps : ∀ p ∈ ps, (edges p).isSome) (hx : edges' x = some ps)
    (hsame : ∀ y, y ≠ x → edges' y = edges y) :
    Leaves edges' ((leaves.filter (· ∉ ps)).insert x) := by
  have hkept {y : α} (hy : (edges y).isSome) : y ≠ x ∧ edges' y = edges y := by
    have hne : y ≠ x := by
      rintro rfl
      rw [hnew] at hy
      cases hy
    exact ⟨hne, hsame y hne⟩
  have hselfless : x ∉ ps := fun hmem => (hkept (hps x hmem)).1 rfl
  have hfresh {y : α} {qs : List α} (hy : edges y = some qs) : x ∉ qs :=
    fun hmem => (hkept (h.closed hy x hmem)).1 rfl
  refine ⟨fun {y qs} hy p hp => ?_, (h.nodup.filter _).insert, fun y => ?_⟩
  · have hold : (edges p).isSome := by
      by_cases heq : y = x
      · subst heq
        obtain rfl := Option.some.inj (hy.symm.trans hx)
        exact hps p hp
      · rw [hsame y heq] at hy
        exact h.closed hy p hp
    rw [(hkept hold).2]
    exact hold
  · rw [List.mem_insert_iff, List.mem_filter, decide_eq_true_eq, h.mem_iff]
    constructor
    · rintro (rfl | ⟨⟨hsome, hno⟩, hnotin⟩)
      · refine ⟨by rw [hx]; rfl, fun z qs hz => ?_⟩
        by_cases heq : z = y
        · subst heq
          obtain rfl := Option.some.inj (hz.symm.trans hx)
          exact hselfless
        · rw [hsame z heq] at hz
          exact hfresh hz
      · refine ⟨by rw [(hkept hsome).2]; exact hsome, fun z qs hz => ?_⟩
        by_cases heq : z = x
        · subst heq
          obtain rfl := Option.some.inj (hz.symm.trans hx)
          exact hnotin
        · rw [hsame z heq] at hz
          exact hno z qs hz
    · rintro ⟨hsome, hno⟩
      by_cases heq : y = x
      · exact Or.inl heq
      · rw [hsame y heq] at hsome
        refine Or.inr ⟨⟨hsome, fun z qs hz => ?_⟩, hno x ps hx⟩
        have hz' := (hkept (by rw [hz]; rfl : (edges z).isSome)).2
        exact hno z qs (hz'.trans hz)

end Leaves
end LibHotStuff
