import Mathlib

/-! Promises with callbacks, as a heap of which the positions are the references. A promise is made
for a goal; what it is fulfilled with is a value. -/

namespace LibHotStuff

inductive PromiseState (κ ν : Type*)
  | pending (callbacks : List κ)
  | fulfilled (value : ν)
  | rejected

structure Promise (α κ ν : Type*) where
  goal : α
  state : PromiseState κ ν

abbrev Promises (α κ ν : Type*) := List (Promise α κ ν)

namespace Promises

variable {α κ ν : Type*}

/-- `then`: the callback is called right away when the promise has been fulfilled, and kept when it
is pending. -/
def subscribe (ps : Promises α κ ν) (pm : Nat) (k : κ) : Promises α κ ν × List (κ × ν) :=
  match ps[pm]? with
  | some ⟨g, .pending ks⟩ => (ps.set pm ⟨g, .pending (ks ++ [k])⟩, [])
  | some ⟨_, .fulfilled v⟩ => (ps, [(k, v)])
  | _ => (ps, [])

/-- Attaches callbacks to several promises, one after the other. -/
def subscribeAll : Promises α κ ν → List (Nat × κ) → Promises α κ ν × List (κ × ν)
  | ps, [] => (ps, [])
  | ps, (pm, k) :: rest =>
    let (ps, calls) := ps.subscribe pm k
    let (ps, later) := subscribeAll ps rest
    (ps, calls ++ later)

/-- `resolve`: only a pending promise can be settled. The callbacks are to be called in order. -/
def resolve (ps : Promises α κ ν) (pm : Nat) (v : ν) : Promises α κ ν × List (κ × ν) :=
  match ps[pm]? with
  | some ⟨g, .pending ks⟩ => (ps.set pm ⟨g, .fulfilled v⟩, ks.map fun k => (k, v))
  | _ => (ps, [])

/-- `reject`. -/
def reject (ps : Promises α κ ν) (pm : Nat) : Promises α κ ν :=
  match ps[pm]? with
  | some ⟨g, .pending _⟩ => ps.set pm ⟨g, .rejected⟩
  | _ => ps

/-- What the promise was made for. -/
def goal (ps : Promises α κ ν) (pm : Nat) : Option α := (ps[pm]?).map Promise.goal

/-- A promise is fulfilled with a value that meets its goal, the goal of a pending one is open, and
the callbacks of that one wait for its goal. -/
structure Sound (meets : α → ν → Prop) (waits : κ → α → Prop) (unmet : α → Prop)
    (ps : Promises α κ ν) : Prop where
  fulfilled : ∀ p ∈ ps, ∀ v, p.state = .fulfilled v → meets p.goal v
  pending : ∀ p ∈ ps, ∀ ks, p.state = .pending ks → unmet p.goal ∧ ∀ k ∈ ks, waits k p.goal

/-- The goal of a callback is met by the value that it is called with. -/
def Ready (meets : α → ν → Prop) (waits : κ → α → Prop) (call : κ × ν) : Prop :=
  ∃ a, waits call.1 a ∧ meets a call.2

variable {ps : Promises α κ ν} {pm : Nat} {meets meets' : α → ν → Prop}
  {waits waits' : κ → α → Prop} {unmet unmet' : α → Prop} {a : α} {k : κ} {v : ν}

theorem goal_of_getElem? {p : Promise α κ ν} (h : ps[pm]? = some p) : ps.goal pm = some p.goal := by
  rw [goal, h]
  rfl

theorem goal_eq_some (h : ps.goal pm = some a) : ∃ p, ps[pm]? = some p ∧ p.goal = a :=
  Option.map_eq_some_iff.mp h

theorem goal_append (h : ps.goal pm = some a) (p : Promise α κ ν) :
    goal (ps ++ [p]) pm = some a := by
  obtain ⟨q, hq, rfl⟩ := goal_eq_some h
  apply goal_of_getElem?
  rw [List.getElem?_append_left (List.getElem?_eq_some_iff.mp hq).1]
  exact hq

theorem goal_new (ps : Promises α κ ν) (p : Promise α κ ν) :
    goal (ps ++ [p]) ps.length = some p.goal := by
  apply goal_of_getElem?
  rw [List.getElem?_append_right (Nat.le_refl _), Nat.sub_self]
  rfl

/-- Settling a promise or waiting for it does not change what it is for. -/
theorem goal_set {p q : Promise α κ ν} (hq : ps[pm]? = some q) (hp : p.goal = q.goal) (i : Nat) :
    goal (ps.set pm p) i = goal ps i := by
  unfold goal
  by_cases hi : pm = i
  · subst hi
    rw [List.getElem?_set_self (List.getElem?_eq_some_iff.mp hq).1, hq, Option.map_some,
      Option.map_some, hp]
  · rw [List.getElem?_set_ne hi]

@[simp] theorem goal_subscribe (i : Nat) : (ps.subscribe pm k).1.goal i = ps.goal i := by
  unfold subscribe
  split
  · rename_i g ks hq
    apply goal_set hq
    rfl
  · rfl
  · rfl

@[simp] theorem goal_resolve (i : Nat) : (ps.resolve pm v).1.goal i = ps.goal i := by
  unfold resolve
  split
  · rename_i g ks hq
    apply goal_set hq
    rfl
  · rfl

@[simp] theorem goal_reject (i : Nat) : (ps.reject pm).goal i = ps.goal i := by
  unfold reject
  split
  · rename_i g ks hq
    apply goal_set hq
    rfl
  · rfl

namespace Sound

theorem nil : Sound meets waits unmet ([] : Promises α κ ν) :=
  ⟨by simp, by simp⟩

theorem mono (h : ps.Sound meets waits unmet) (hm : ∀ a v, meets a v → meets' a v)
    (hw : ∀ k a, waits k a → waits' k a) (hu : ∀ a, unmet a → unmet' a) :
    ps.Sound meets' waits' unmet' := by
  refine ⟨fun p hp v hv => hm _ _ (h.fulfilled p hp v hv), fun p hp ks hs => ?_⟩
  obtain ⟨hopen, hks⟩ := h.pending p hp ks hs
  exact ⟨hu _ hopen, fun k hk => hw _ _ (hks k hk)⟩

/-- A new promise waits for nobody. -/
theorem append (h : ps.Sound meets waits unmet) {p : Promise α κ ν}
    (hp : p.state = .pending [] ∧ unmet p.goal ∨ ∃ v, p.state = .fulfilled v ∧ meets p.goal v) :
    Sound meets waits unmet (ps ++ [p]) := by
  constructor
  · intro q hq v hv
    obtain hq | hq := List.mem_append.mp hq
    · exact h.fulfilled q hq v hv
    · obtain rfl := List.mem_singleton.mp hq
      obtain ⟨hpend, _⟩ | ⟨w, hw, hmeets⟩ := hp
      · rw [hpend] at hv
        cases hv
      · rw [hw] at hv
        obtain rfl := PromiseState.fulfilled.inj hv
        exact hmeets
  · intro q hq ks hs
    obtain hq | hq := List.mem_append.mp hq
    · exact h.pending q hq ks hs
    · obtain rfl := List.mem_singleton.mp hq
      obtain ⟨hpend, hopen⟩ | ⟨w, hw, hmeets⟩ := hp
      · rw [hpend] at hs
        rw [← PromiseState.pending.inj hs]
        exact ⟨hopen, by simp⟩
      · rw [hw] at hs
        cases hs

theorem set (h : ps.Sound meets waits unmet) {p : Promise α κ ν}
    (hf : ∀ v, p.state = .fulfilled v → meets p.goal v)
    (hp : ∀ ks, p.state = .pending ks → unmet p.goal ∧ ∀ k ∈ ks, waits k p.goal) :
    Sound meets waits unmet (ps.set pm p) := by
  constructor
  · intro q hq
    obtain hq | rfl := List.mem_or_eq_of_mem_set hq
    · exact h.fulfilled q hq
    · exact hf
  · intro q hq
    obtain hq | rfl := List.mem_or_eq_of_mem_set hq
    · exact h.pending q hq
    · exact hp

/-- A callback that waits for the goal of a promise may be attached to it. -/
theorem subscribe (h : ps.Sound meets waits unmet) (hgoal : ps.goal pm = some a) (hk : waits k a) :
    (ps.subscribe pm k).1.Sound meets waits unmet ∧
      ∀ call ∈ (ps.subscribe pm k).2, Ready meets waits call := by
  unfold Promises.subscribe
  split
  · rename_i g ks hq
    obtain rfl : g = a := Option.some.inj ((goal_of_getElem? hq).symm.trans hgoal)
    obtain ⟨hopen, hks⟩ := h.pending _ (List.mem_of_getElem? hq) ks rfl
    refine ⟨h.set (fun v hv => nomatch hv) fun ks' hs => ⟨hopen, fun k' hk' => ?_⟩, by simp⟩
    rw [← PromiseState.pending.inj hs] at hk'
    obtain hk' | hk' := List.mem_append.mp hk'
    · exact hks k' hk'
    · rw [List.mem_singleton.mp hk']
      exact hk
  · rename_i g v hq
    obtain rfl : g = a := Option.some.inj ((goal_of_getElem? hq).symm.trans hgoal)
    refine ⟨h, fun call hc => ?_⟩
    rw [List.mem_singleton.mp hc]
    exact ⟨g, hk, h.fulfilled _ (List.mem_of_getElem? hq) v rfl⟩
  · exact ⟨h, by simp⟩

/-- A promise may be resolved with a value that meets its goal. -/
theorem resolve (h : ps.Sound meets waits unmet) (hmeets : ∀ a, ps.goal pm = some a → meets a v) :
    (ps.resolve pm v).1.Sound meets waits unmet ∧
      ∀ call ∈ (ps.resolve pm v).2, Ready meets waits call := by
  unfold Promises.resolve
  split
  · rename_i g ks hq
    have hg := hmeets g (goal_of_getElem? hq)
    refine ⟨h.set (fun w hw => ?_) (fun _ hs => nomatch hs), fun call hc => ?_⟩
    · rw [← PromiseState.fulfilled.inj hw]
      exact hg
    · obtain ⟨k, hk, rfl⟩ := List.mem_map.mp hc
      exact ⟨g, (h.pending _ (List.mem_of_getElem? hq) ks rfl).2 k hk, hg⟩
  · exact ⟨h, by simp⟩

theorem reject (h : ps.Sound meets waits unmet) : (ps.reject pm).Sound meets waits unmet := by
  unfold Promises.reject
  split
  · exact h.set (fun _ hv => nomatch hv) fun _ hs => nomatch hs
  · exact h

/-- Callbacks that wait for the goals of promises may be attached to them. -/
theorem subscribeAll (h : ps.Sound meets waits unmet) {ks : List (Nat × κ)}
    (hks : ∀ x ∈ ks, ∃ a, ps.goal x.1 = some a ∧ waits x.2 a) :
    (ps.subscribeAll ks).1.Sound meets waits unmet ∧
      ∀ call ∈ (ps.subscribeAll ks).2, Ready meets waits call := by
  induction ks generalizing ps with
  | nil => exact ⟨h, by simp [Promises.subscribeAll]⟩
  | cons x ks ih =>
    obtain ⟨a, hgoal, hwaits⟩ := hks x List.mem_cons_self
    obtain ⟨hsound, hcalls⟩ := h.subscribe hgoal hwaits
    have hrest : ∀ y ∈ ks, ∃ a, (ps.subscribe x.1 x.2).1.goal y.1 = some a ∧ waits y.2 a := by
      intro y hy
      rw [goal_subscribe]
      exact hks y (List.mem_cons_of_mem x hy)
    obtain ⟨hsound, hlater⟩ := ih hsound hrest
    refine ⟨hsound, fun call hc => ?_⟩
    obtain hc | hc := List.mem_append.mp hc
    · exact hcalls call hc
    · exact hlater call hc

end Sound

@[simp] theorem goal_subscribeAll (ks : List (Nat × κ)) (i : Nat) :
    (ps.subscribeAll ks).1.goal i = ps.goal i := by
  induction ks generalizing ps with
  | nil => rfl
  | cons x ks ih => exact ih.trans (goal_subscribe i)

section State

/-- How far a promise is; none when there is no such promise. -/
def state (ps : Promises α κ ν) (pm : Nat) : Option (PromiseState κ ν) := (ps[pm]?).map Promise.state

def isPending (ps : Promises α κ ν) (pm : Nat) : Bool :=
  match ps.state pm with
  | some (.pending _) => true
  | _ => false

def isFulfilled (ps : Promises α κ ν) (pm : Nat) : Bool :=
  match ps.state pm with
  | some (.fulfilled _) => true
  | _ => false

def isRejected (ps : Promises α κ ν) (pm : Nat) : Bool :=
  match ps.state pm with
  | some .rejected => true
  | _ => false

variable {i : Nat}

theorem state_append (h : i < ps.length) (p : Promise α κ ν) : state (ps ++ [p]) i = ps.state i := by
  rw [state, state, List.getElem?_append_left h]

theorem isPending_append (h : i < ps.length) (p : Promise α κ ν) :
    isPending (ps ++ [p]) i = ps.isPending i := by
  rw [isPending, isPending, state_append h]

theorem isFulfilled_append (h : i < ps.length) (p : Promise α κ ν) :
    isFulfilled (ps ++ [p]) i = ps.isFulfilled i := by
  rw [isFulfilled, isFulfilled, state_append h]

theorem isRejected_append (h : i < ps.length) (p : Promise α κ ν) :
    isRejected (ps ++ [p]) i = ps.isRejected i := by
  rw [isRejected, isRejected, state_append h]

theorem state_new (ps : Promises α κ ν) (p : Promise α κ ν) :
    state (ps ++ [p]) ps.length = some p.state := by
  rw [state, List.getElem?_append_right (Nat.le_refl _), Nat.sub_self]
  rfl

theorem lt_of_goal (h : ps.goal pm = some a) : pm < ps.length := by
  obtain ⟨p, hp, _⟩ := goal_eq_some h
  exact (List.getElem?_eq_some_iff.mp hp).1

theorem lt_of_state (h : ps.isPending pm = true ∨ ps.isFulfilled pm = true ∨ ps.isRejected pm = true) :
    pm < ps.length := by
  by_contra hge
  have hnone : ps.state pm = none := by
    rw [state, List.getElem?_eq_none (Nat.le_of_not_lt hge)]
    rfl
  simp [isPending, isFulfilled, isRejected, hnone] at h

theorem state_cases (h : pm < ps.length) :
    ps.isPending pm = true ∨ ps.isFulfilled pm = true ∨ ps.isRejected pm = true := by
  rw [isPending, isFulfilled, isRejected, state, List.getElem?_eq_getElem h]
  obtain ⟨g, st⟩ := ps[pm]
  cases st <;> simp

/-- A pending promise that is settled; the others stay. -/
theorem state_set {p q : Promise α κ ν} (hq : ps[pm]? = some q) (i : Nat) :
    state (ps.set pm p) i = if i = pm then some p.state else ps.state i := by
  rw [state, state]
  split
  · rename_i hi
    rw [hi, List.getElem?_set_self (List.getElem?_eq_some_iff.mp hq).1]
    rfl
  · rename_i hi
    rw [List.getElem?_set_ne fun h => hi h.symm]

theorem isPending_iff :
    ps.isPending pm = true ↔ ∃ g ks, ps[pm]? = some ⟨g, .pending ks⟩ := by
  unfold isPending state
  cases hp : ps[pm]? with
  | none => simp
  | some p =>
    obtain ⟨g, st⟩ := p
    cases st <;> simp

theorem state_resolve (ps : Promises α κ ν) (pm : Nat) (v : ν) (i : Nat) :
    (ps.resolve pm v).1.state i =
      if i = pm ∧ ps.isPending pm = true then some (.fulfilled v) else ps.state i := by
  unfold resolve
  split
  · rename_i g ks hq
    have hpend : ps.isPending pm = true := isPending_iff.mpr ⟨g, ks, hq⟩
    rw [state_set hq]
    simp only [hpend, and_true]
  · rename_i hnot
    rw [if_neg]
    rintro ⟨_, hpend⟩
    obtain ⟨g, ks, hq⟩ := isPending_iff.mp hpend
    exact hnot g ks hq

theorem state_reject (ps : Promises α κ ν) (pm i : Nat) :
    (ps.reject pm).state i =
      if i = pm ∧ ps.isPending pm = true then some .rejected else ps.state i := by
  unfold reject
  split
  · rename_i g ks hq
    have hpend : ps.isPending pm = true := isPending_iff.mpr ⟨g, ks, hq⟩
    rw [state_set hq]
    simp only [hpend, and_true]
  · rename_i hnot
    rw [if_neg]
    rintro ⟨_, hpend⟩
    obtain ⟨g, ks, hq⟩ := isPending_iff.mp hpend
    exact hnot g ks hq

theorem isPending_resolve :
    (ps.resolve pm v).1.isPending i = (ps.isPending i && decide (i ≠ pm)) := by
  rw [isPending, state_resolve]
  by_cases hi : i = pm
  · subst hi
    cases hp : ps.isPending i
    · rw [if_neg (by simp)]
      exact hp
    · simp
  · rw [if_neg (fun h => hi h.1)]
    simp [isPending, hi]

theorem isFulfilled_resolve : (ps.resolve pm v).1.isFulfilled i =
    (ps.isFulfilled i || decide (i = pm) && ps.isPending pm) := by
  rw [isFulfilled, state_resolve]
  by_cases h : i = pm ∧ ps.isPending pm = true
  · simp [h]
  · rw [if_neg h]
    cases hp : ps.isPending pm
    · simp [isFulfilled]
    · have hi : i ≠ pm := fun hi => h ⟨hi, hp⟩
      simp [isFulfilled, hi]

theorem isRejected_resolve : (ps.resolve pm v).1.isRejected i = ps.isRejected i := by
  rw [isRejected, state_resolve]
  by_cases h : i = pm ∧ ps.isPending pm = true
  · obtain ⟨g, ks, hq⟩ := isPending_iff.mp h.2
    simp [isRejected, state, h, hq]
  · rw [if_neg h]
    rfl

theorem isPending_reject :
    (ps.reject pm).isPending i = (ps.isPending i && decide (i ≠ pm)) := by
  rw [isPending, state_reject]
  by_cases hi : i = pm
  · subst hi
    cases hp : ps.isPending i
    · rw [if_neg (by simp)]
      exact hp
    · simp
  · rw [if_neg (fun h => hi h.1)]
    simp [isPending, hi]

theorem isFulfilled_reject : (ps.reject pm).isFulfilled i = ps.isFulfilled i := by
  rw [isFulfilled, state_reject]
  by_cases h : i = pm ∧ ps.isPending pm = true
  · obtain ⟨g, ks, hq⟩ := isPending_iff.mp h.2
    simp [isFulfilled, state, h, hq]
  · rw [if_neg h]
    rfl

theorem isRejected_reject : (ps.reject pm).isRejected i =
    (ps.isRejected i || decide (i = pm) && ps.isPending pm) := by
  rw [isRejected, state_reject]
  by_cases h : i = pm ∧ ps.isPending pm = true
  · simp [h]
  · rw [if_neg h]
    cases hp : ps.isPending pm
    · simp [isRejected]
    · have hi : i ≠ pm := fun hi => h ⟨hi, hp⟩
      simp [isRejected, hi]

end State

section Holds

/-- The callback is attached to the promise, which is pending. -/
def Holds (ps : Promises α κ ν) (pm : Nat) (k : κ) : Prop :=
  ∃ g ks, ps[pm]? = some ⟨g, .pending ks⟩ ∧ k ∈ ks

variable {i : Nat} {k' : κ}

theorem Holds.isPending (h : ps.Holds pm k) : ps.isPending pm = true := by
  obtain ⟨g, ks, hp, _⟩ := h
  exact isPending_iff.mpr ⟨g, ks, hp⟩

theorem Holds.append (h : ps.Holds pm k) (p : Promise α κ ν) : Holds (ps ++ [p]) pm k := by
  obtain ⟨g, ks, hp, hk⟩ := h
  refine ⟨g, ks, ?_, hk⟩
  rw [List.getElem?_append_left (List.getElem?_eq_some_iff.mp hp).1, hp]

/-- Other callbacks stay when one is attached. -/
theorem Holds.subscribe (h : ps.Holds i k') (pm : Nat) (k : κ) : (ps.subscribe pm k).1.Holds i k' := by
  obtain ⟨g, ks, hp, hk⟩ := h
  unfold Promises.subscribe
  split
  · rename_i g' ks' hq
    by_cases hi : pm = i
    · subst hi
      rw [hp] at hq
      obtain ⟨rfl, hks⟩ := Promise.mk.inj (Option.some.inj hq)
      obtain rfl := PromiseState.pending.inj hks
      refine ⟨g, ks ++ [k], ?_, List.mem_append_left _ hk⟩
      rw [List.getElem?_set_self (List.getElem?_eq_some_iff.mp hp).1]
    · exact ⟨g, ks, by rw [List.getElem?_set_ne hi, hp], hk⟩
  · exact ⟨g, ks, hp, hk⟩
  · exact ⟨g, ks, hp, hk⟩

/-- A callback that is attached to a promise that has not been rejected is kept or called. -/
theorem subscribe_held (hgoal : ps.goal pm = some a) (hkept : ps.isRejected pm = false) (k : κ) :
    (ps.subscribe pm k).1.Holds pm k ∨ ∃ v, (k, v) ∈ (ps.subscribe pm k).2 := by
  obtain ⟨⟨g, st⟩, hp, _⟩ := goal_eq_some hgoal
  cases st with
  | pending ks =>
    refine Or.inl ⟨g, ks ++ [k], ?_, List.mem_append_right _ (List.mem_singleton_self k)⟩
    simp only [subscribe, hp]
    rw [List.getElem?_set_self (List.getElem?_eq_some_iff.mp hp).1]
  | fulfilled v =>
    refine Or.inr ⟨v, ?_⟩
    simp only [subscribe, hp, List.mem_singleton]
  | rejected =>
    rw [isRejected, state, hp] at hkept
    cases hkept

/-- The callbacks of a promise are called when it is resolved. -/
theorem Holds.resolve (h : ps.Holds i k) (pm : Nat) (v : ν) :
    (ps.resolve pm v).1.Holds i k ∨ (k, v) ∈ (ps.resolve pm v).2 := by
  obtain ⟨g, ks, hp, hk⟩ := h
  unfold Promises.resolve
  split
  · rename_i g' ks' hq
    by_cases hi : pm = i
    · subst hi
      rw [hp] at hq
      obtain ⟨rfl, hks⟩ := Promise.mk.inj (Option.some.inj hq)
      obtain rfl := PromiseState.pending.inj hks
      exact Or.inr (List.mem_map.mpr ⟨k, hk, rfl⟩)
    · exact Or.inl ⟨g, ks, by rw [List.getElem?_set_ne hi, hp], hk⟩
  · exact Or.inl ⟨g, ks, hp, hk⟩

theorem Holds.reject (h : ps.Holds i k) (hi : i ≠ pm) : (ps.reject pm).Holds i k := by
  obtain ⟨g, ks, hp, hk⟩ := h
  unfold Promises.reject
  split
  · exact ⟨g, ks, by rw [List.getElem?_set_ne hi.symm, hp], hk⟩
  · exact ⟨g, ks, hp, hk⟩

theorem isPending_subscribe : (ps.subscribe pm k).1.isPending i = ps.isPending i := by
  unfold subscribe
  split
  · rename_i g ks hq
    rw [isPending, isPending, state_set hq]
    by_cases hi : i = pm
    · rw [if_pos hi, hi, state, hq]
      rfl
    · rw [if_neg hi]
  · rfl
  · rfl

theorem isRejected_subscribe : (ps.subscribe pm k).1.isRejected i = ps.isRejected i := by
  unfold subscribe
  split
  · rename_i g ks hq
    rw [isRejected, isRejected, state_set hq]
    by_cases hi : i = pm
    · rw [if_pos hi, hi, state, hq]
      rfl
    · rw [if_neg hi]
  · rfl
  · rfl

theorem isPending_subscribeAll (ks : List (Nat × κ)) (i : Nat) :
    (ps.subscribeAll ks).1.isPending i = ps.isPending i := by
  induction ks generalizing ps with
  | nil => rfl
  | cons x ks ih => exact ih.trans isPending_subscribe

theorem isRejected_subscribeAll (ks : List (Nat × κ)) (i : Nat) :
    (ps.subscribeAll ks).1.isRejected i = ps.isRejected i := by
  induction ks generalizing ps with
  | nil => rfl
  | cons x ks ih => exact ih.trans isRejected_subscribe

theorem Holds.subscribeAll (h : ps.Holds i k) (ks : List (Nat × κ)) :
    (ps.subscribeAll ks).1.Holds i k := by
  induction ks generalizing ps with
  | nil => exact h
  | cons x ks ih => exact ih (h.subscribe x.1 x.2)

/-- Callbacks that are attached to promises that have not been rejected are kept or called. -/
theorem subscribeAll_held {ks : List (Nat × κ)}
    (hks : ∀ x ∈ ks, (∃ a, ps.goal x.1 = some a) ∧ ps.isRejected x.1 = false) {x : Nat × κ}
    (hx : x ∈ ks) :
    (ps.subscribeAll ks).1.Holds x.1 x.2 ∨ ∃ v, (x.2, v) ∈ (ps.subscribeAll ks).2 := by
  induction ks generalizing ps with
  | nil => cases hx
  | cons y ks ih =>
    obtain rfl | hx := List.mem_cons.mp hx
    · obtain ⟨⟨a, hgoal⟩, hkept⟩ := hks x List.mem_cons_self
      obtain hheld | ⟨v, hv⟩ := subscribe_held hgoal hkept x.2
      · exact Or.inl (hheld.subscribeAll ks)
      · exact Or.inr ⟨v, List.mem_append_left _ hv⟩
    · have hrest : ∀ z ∈ ks, (∃ a, (ps.subscribe y.1 y.2).1.goal z.1 = some a) ∧
          (ps.subscribe y.1 y.2).1.isRejected z.1 = false := by
        intro z hz
        rw [goal_subscribe, isRejected_subscribe]
        exact hks z (List.mem_cons_of_mem y hz)
      obtain hheld | ⟨v, hv⟩ := ih hrest hx
      · exact Or.inl hheld
      · exact Or.inr ⟨v, List.mem_append_right _ hv⟩

theorem holds_append {p : Promise α κ ν} (h : Holds (ps ++ [p]) i k) :
    ps.Holds i k ∨ i = ps.length ∧ ∃ ks, p.state = .pending ks ∧ k ∈ ks := by
  obtain ⟨g, ks, hp, hk⟩ := h
  rw [List.getElem?_append] at hp
  split at hp
  · exact Or.inl ⟨g, ks, hp, hk⟩
  · obtain ⟨hi, hget⟩ := List.getElem?_eq_some_iff.mp hp
    have hlen : i - ps.length = 0 := Nat.lt_one_iff.mp hi
    have heq : p = ⟨g, .pending ks⟩ := by simpa [hlen] using hget
    exact Or.inr ⟨by omega, ks, by rw [heq], hk⟩

/-- Only the one that is attached is new. -/
theorem holds_subscribe (h : (ps.subscribe pm k).1.Holds i k') :
    ps.Holds i k' ∨ i = pm ∧ k' = k ∧ ps.isPending pm = true := by
  unfold Promises.subscribe at h
  split at h
  · rename_i g ks hq
    obtain ⟨g', ks', hp, hk⟩ := h
    by_cases hi : pm = i
    · subst hi
      rw [List.getElem?_set_self (List.getElem?_eq_some_iff.mp hq).1] at hp
      obtain ⟨rfl, hks⟩ := Promise.mk.inj (Option.some.inj hp)
      obtain rfl := PromiseState.pending.inj hks
      obtain hold | hnew := List.mem_append.mp hk
      · exact Or.inl ⟨g, ks, hq, hold⟩
      · exact Or.inr ⟨rfl, List.mem_singleton.mp hnew, isPending_iff.mpr ⟨g, ks, hq⟩⟩
    · rw [List.getElem?_set_ne hi] at hp
      exact Or.inl ⟨g', ks', hp, hk⟩
  · exact Or.inl h
  · exact Or.inl h

/-- A promise that is settled holds nothing any more. -/
theorem holds_set {p : Promise α κ ν} (hp : ∀ ks, p.state ≠ .pending ks) (h : Holds (ps.set pm p) i k) :
    ps.Holds i k ∧ i ≠ pm := by
  obtain ⟨g, ks, hq, hk⟩ := h
  by_cases hi : pm = i
  · subst hi
    have hlt : pm < ps.length := by
      have hset := (List.getElem?_eq_some_iff.mp hq).1
      rwa [List.length_set] at hset
    rw [List.getElem?_set_self hlt] at hq
    exact absurd (congrArg Promise.state (Option.some.inj hq)) (hp ks)
  · rw [List.getElem?_set_ne hi] at hq
    exact ⟨⟨g, ks, hq, hk⟩, Ne.symm hi⟩

theorem holds_reject (h : (ps.reject pm).Holds i k) : ps.Holds i k ∧ i ≠ pm := by
  unfold Promises.reject at h
  split at h
  · exact holds_set (by simp) h
  · rename_i hnot
    refine ⟨h, ?_⟩
    rintro rfl
    obtain ⟨g, ks, hp, _⟩ := h
    exact hnot g ks hp

/-- What `resolve` does to a pending promise, or nothing. -/
theorem resolve_cases (ps : Promises α κ ν) (pm : Nat) (v : ν) :
    ps.resolve pm v = (ps, []) ∨ ∃ g ks, ps[pm]? = some ⟨g, .pending ks⟩ ∧
      ps.resolve pm v = (ps.set pm ⟨g, .fulfilled v⟩, ks.map fun k => (k, v)) := by
  unfold resolve
  split
  · rename_i g ks hq
    exact Or.inr ⟨g, ks, hq, rfl⟩
  · exact Or.inl rfl

/-- A callback is kept by a pending promise, called at once by one that has been fulfilled, and
dropped by any other. -/
theorem subscribe_cases (ps : Promises α κ ν) (pm : Nat) (k : κ) :
    (∃ g ks, ps[pm]? = some ⟨g, .pending ks⟩ ∧
      ps.subscribe pm k = (ps.set pm ⟨g, .pending (ks ++ [k])⟩, [])) ∨
    (∃ g v, ps[pm]? = some ⟨g, .fulfilled v⟩ ∧ ps.subscribe pm k = (ps, [(k, v)])) ∨
      ps.subscribe pm k = (ps, []) := by
  unfold subscribe
  split
  · rename_i g ks hq
    exact Or.inl ⟨g, ks, hq, rfl⟩
  · rename_i g v hq
    exact Or.inr (Or.inl ⟨g, v, hq, rfl⟩)
  · exact Or.inr (Or.inr rfl)

end Holds

end Promises
end LibHotStuff
