import LibHotStuff.Proofs.DeliveryOwed

/-! Deliveries begin: `async_fetch_blk`, `async_deliver_blk` and a new `all` keep what is owed. -/

namespace LibHotStuff

open Promises

variable {H Sig : Type} {P : Primitives H Sig} [DecidableEq H]

namespace HotStuffBase

variable {b b' : HotStuffBase H Sig} {fs fs' : List (Frame H Sig)} {blk : H}
  {ctx idx : Nat} {v : Bool}

/-- No promise of a state is rejected. -/
def Keeps (b b' : HotStuffBase H Sig) : Prop :=
  ∀ pm a, b.promises.goal pm = some a → b.promises.isRejected pm = false →
    b'.promises.isRejected pm = false

omit [DecidableEq H] in
theorem newPromise_keeps (b : HotStuffBase H Sig) (goal : Awaited H Sig)
    (state : PromiseState (Callback H) Bool) : b.Keeps (b.newPromise goal state).1 := by
  intro pm a hgoal hkept
  exact (isRejected_append (lt_of_goal hgoal) _).trans hkept

omit [DecidableEq H] in
/-- A promise that is out of range has not been rejected. -/
theorem isRejected_length (ps : Promises (Awaited H Sig) (Callback H) Bool) :
    ps.isRejected ps.length = false := by
  rw [← Bool.not_eq_true]
  intro hrej
  exact absurd (lt_of_state (Or.inr (Or.inr hrej))) (Nat.lt_irrefl _)

theorem asyncFetchBlk_frames (b : HotStuffBase H Sig) (blk : H) :
    (b.asyncFetchBlk blk).1.frames = b.frames := by
  unfold HotStuffBase.asyncFetchBlk
  split
  · rfl
  split
  · rfl
  · rfl

/-- A new entry, or one of the others. -/
theorem update_cases {waiting : H → Option Nat} {blk x : H} {new pm : Nat}
    (h : Function.update waiting blk (some new) x = some pm) :
    x = blk ∧ pm = new ∨ x ≠ blk ∧ waiting x = some pm := by
  by_cases hx : x = blk
  · rw [hx, Function.update_self] at h
    exact Or.inl ⟨hx, (Option.some.inj h).symm⟩
  · rw [Function.update_of_ne hx] at h
    exact Or.inr ⟨hx, h⟩

namespace Deliveries

theorem asyncFetchBlk (h : b.Deliveries P fs) (hp : b.Pending P) (blk : H) :
    (b.asyncFetchBlk blk).1.Deliveries P fs ∧ b.Keeps (b.asyncFetchBlk blk).1 ∧
      (b.asyncFetchBlk blk).1.promises.isRejected (b.asyncFetchBlk blk).2 = false := by
  unfold HotStuffBase.asyncFetchBlk
  split
  · refine ⟨h.newPromise hp (Or.inr ⟨true, rfl, fun _ _ => rfl⟩), newPromise_keeps b _ _, ?_⟩
    change isRejected (b.promises ++ [_]) b.promises.length = false
    rw [isRejected, state_new]
  rename_i hst
  split
  · rename_i pm hpm
    exact ⟨h, fun _ _ _ hkept => hkept, h.fetchKept blk pm hpm⟩
  · rename_i hnone
    have h₁ : ({ b with
        blkFetchWaiting := Function.update b.blkFetchWaiting blk (some b.promises.length) } :
          HotStuffBase H Sig).Deliveries P fs := by
      refine ⟨h.entries, h.parts, h.verdicts, h.fair, h.ready, fun x pm hpm => ?_, h.deliveryKept,
        h.collected, fun x pm hg hpend => ?_, h.deliveryKnown, fun x hx => ?_, h.eraseDelivery⟩
      · obtain ⟨_, rfl⟩ | ⟨_, hold⟩ := update_cases hpm
        · exact isRejected_length b.promises
        · exact h.fetchKept x pm hold
      · have hold := h.fetchKnown x pm hg hpend
        have hx : x ≠ blk := by
          rintro rfl
          rw [hnone] at hold
          cases hold
        exact (Function.update_of_ne hx ..).trans hold
      · obtain ⟨hstored, hset⟩ := h.eraseFetch x hx
        refine ⟨hstored, fun pm hpm => ?_⟩
        obtain ⟨rfl, _⟩ | ⟨_, hold⟩ := update_cases hpm
        · exact absurd hstored hst
        · exact hset pm hold
    refine ⟨h₁.append (p := ⟨.fetched blk, .pending []⟩) (Or.inl ⟨rfl, fun x heq => ?_,
      fun x heq => by cases heq⟩) fun x pm hx => ?_, newPromise_keeps b _ _, ?_⟩
    · obtain rfl := Awaited.fetched.inj heq
      exact Function.update_self ..
    · obtain ⟨hx, hpm⟩ | ⟨_, hpm⟩ := hx
      · obtain ⟨rfl, _⟩ | ⟨_, hold⟩ := update_cases hpm
        · exact absurd (h.eraseFetch x hx).1 hst
        · exact lt_of_goal (hp.fetchWaiting x pm hold)
      · exact lt_of_goal (hp.deliveryWaiting x pm hpm)
    · change isRejected (b.promises ++ [_]) b.promises.length = false
      rw [isRejected, state_new]

/-- A new entry, for a block of which the delivery goes on. -/
theorem newDelivery (h : b.Deliveries P fs) (hp : b.Pending P) {blk : H}
    (hd : ¬ b.core.delivered blk = true) (hnone : b.blkDeliveryWaiting blk = none)
    (hstaged : b.Staged fs blk) :
    ({ (b.newPromise (.delivered blk) (.pending [])).1 with
      blkDeliveryWaiting := Function.update b.blkDeliveryWaiting blk (some b.promises.length) } :
        HotStuffBase H Sig).Deliveries P fs := by
  have h₁ : ({ b with
      blkDeliveryWaiting := Function.update b.blkDeliveryWaiting blk (some b.promises.length) } :
        HotStuffBase H Sig).Deliveries P fs := by
    refine ⟨fun x pm hpm => ?_, h.parts, h.verdicts, h.fair, h.ready, h.fetchKept,
      fun x pm hpm => ?_, h.collected, h.fetchKnown, fun x pm hg hpend => ?_, h.eraseFetch,
      fun x hx => ?_⟩
    · obtain ⟨rfl, _⟩ | ⟨_, hold⟩ := update_cases hpm
      · exact hstaged
      · exact h.entries x pm hold
    · obtain ⟨_, rfl⟩ | ⟨_, hold⟩ := update_cases hpm
      · exact isRejected_length b.promises
      · exact h.deliveryKept x pm hold
    · have hold := h.deliveryKnown x pm hg hpend
      have hx : x ≠ blk := by
        rintro rfl
        rw [hnone] at hold
        cases hold
      exact (Function.update_of_ne hx ..).trans hold
    · obtain ⟨hdel, hset⟩ := h.eraseDelivery x hx
      refine ⟨hdel, fun pm hpm => ?_⟩
      obtain ⟨rfl, _⟩ | ⟨_, hold⟩ := update_cases hpm
      · exact absurd hdel hd
      · exact hset pm hold
  refine h₁.append (p := ⟨.delivered blk, .pending []⟩) (Or.inl ⟨rfl, ?_, ?_⟩) fun x pm hx => ?_
  · intro x heq
    cases heq
  · intro x heq
    obtain rfl := Awaited.delivered.inj heq
    exact Function.update_self ..
  · obtain ⟨_, hpm⟩ | ⟨hx, hpm⟩ := hx
    · exact lt_of_goal (hp.fetchWaiting x pm hpm)
    · obtain ⟨rfl, _⟩ | ⟨_, hold⟩ := update_cases hpm
      · exact absurd (h.eraseDelivery x hx).1 hd
      · exact lt_of_goal (hp.deliveryWaiting x pm hold)

/-- The delivery fetches its block; the frame has stood in for the callback until it is attached. -/
theorem fetchDelivery (h : b.Deliveries P (.call (.fetched blk) true :: fs)) (hp : b.Pending P)
    (hgen : blk ≠ P.genesisHash) :
    let f := b.asyncFetchBlk blk
    let r := f.1.promises.subscribe f.2 (.fetched blk)
    ({ f.1 with promises := r.1 } : HotStuffBase H Sig).Deliveries P (calls r.2 ++ fs) ∧
      b.Keeps { f.1 with promises := r.1 } := by
  obtain ⟨hf, hkeeps, hkept⟩ := h.asyncFetchBlk hp blk
  obtain ⟨_, _, hgoal⟩ := hp.asyncFetchBlk blk
  have hsub := hf.subscribe hgoal (k := .fetched blk) ⟨rfl, hgen⟩
  refine ⟨?_, fun pm a hpm hkept => ?_⟩
  · have hfront := Deliveries.swap _ [.call (.fetched blk) true] hsub
    refine Deliveries.drop hfront (fun x _ hx _ => ?_) fun ctx idx v x heq => nomatch heq
    obtain rfl := Option.some.inj hx
    obtain hheld | ⟨v, hv⟩ := subscribe_held hgoal hkept (Callback.fetched blk)
    · exact Or.inl ⟨_, hheld⟩
    · refine Or.inr (Or.inl ⟨.call (.fetched blk) v, List.mem_append_left _ ?_, rfl⟩)
      exact List.mem_map.mpr ⟨_, hv, rfl⟩
  · change Promises.isRejected (Promises.subscribe _ _ _).1 pm = false
    rw [isRejected_subscribe]
    exact hkeeps pm a hpm hkept

/-- `async_deliver_blk` hands a promise that has not been rejected to the rest of its caller. -/
theorem asyncDeliverBlk (h : b.Deliveries P fs) (hp : b.Pending P) (blk : H)
    (next : Nat → Frame H Sig) :
    ∃ gs pm, (b.asyncDeliverBlk blk next).frames = gs ++ next pm :: b.frames ∧
      (b.asyncDeliverBlk blk next).Deliveries P (gs ++ fs) ∧ b.Keeps (b.asyncDeliverBlk blk next) ∧
      (b.asyncDeliverBlk blk next).promises.isRejected pm = false := by
  unfold HotStuffBase.asyncDeliverBlk
  split
  · refine ⟨[], b.promises.length, rfl, ?_, newPromise_keeps b _ _, ?_⟩
    · exact (h.newPromise hp (Or.inr ⟨true, rfl, fun _ _ => rfl⟩)).withFrames _
    · change isRejected (b.promises ++ [_]) b.promises.length = false
      rw [isRejected, state_new]
  rename_i hd
  split
  · rename_i pm hpm
    exact ⟨[], pm, rfl, h.withFrames _, fun _ _ _ hkept => hkept, h.deliveryKept blk pm hpm⟩
  · rename_i hnone
    have hgen := hp.ne_genesis hd
    have hcall : b.Deliveries P (.call (.fetched blk) true :: fs) := by
      refine h.push [.call (.fetched blk) true] (fun k v hv => ?_) (fun f hf pm hpm => ?_)
        (fun x hx => ?_) fun x hx => ?_
      · obtain ⟨rfl, rfl⟩ := Frame.call.inj (List.mem_singleton.mp hv)
        exact ⟨.fetched blk, ⟨rfl, hgen⟩, fun _ _ => rfl⟩
      · rw [List.mem_singleton.mp hf] at hpm
        cases hpm
      · cases List.mem_singleton.mp hx
      · cases List.mem_singleton.mp hx
    have hstaged : b.Staged (.call (.fetched blk) true :: fs) blk :=
      Or.inr (Or.inl ⟨_, List.mem_cons_self .., rfl⟩)
    obtain ⟨hp₁, _, hgoal₁⟩ := hp.newDelivery blk
    obtain ⟨hlast, hkeeps⟩ := (hcall.newDelivery hp hd hnone hstaged).fetchDelivery hp₁ hgen
    refine ⟨_, b.promises.length, ?_, hlast.withFrames _, ?_, ?_⟩
    · change (_ ++ [_]) ++ (HotStuffBase.asyncFetchBlk _ blk).1.frames = _
      rw [asyncFetchBlk_frames, List.append_assoc]
      rfl
    · intro pm a hpm hkept
      exact hkeeps pm a (goal_append hpm _) (newPromise_keeps b _ _ pm a hpm hkept)
    · refine hkeeps _ _ hgoal₁ ?_
      change isRejected (b.promises ++ [_]) b.promises.length = false
      rw [isRejected, state_new]

omit [DecidableEq H] in
/-- Calls may go of which the values are not waited for. -/
theorem dropCalls {gs : List (Frame H Sig)} (h : b.Deliveries P (gs ++ fs))
    (hgs : ∀ f ∈ gs, ∃ ctx idx v, f = .call (.part ctx idx) v ∧
      ∀ x, b.Lacks ctx x idx → b.Owed fs (.part ctx idx)) : b.Deliveries P fs := by
  induction gs with
  | nil => exact h
  | cons f gs ih =>
    refine ih (Deliveries.drop h (fun x pm hx _ => ?_) fun ctx idx v x heq hlacks => ?_) fun g hg =>
      hgs g (List.mem_cons_of_mem f hg)
    · obtain ⟨ctx, idx, v, rfl, _⟩ := hgs f (List.mem_cons_self ..)
      cases hx
    · obtain ⟨ctx', idx', v', heq', howed⟩ := hgs f (List.mem_cons_self ..)
      rw [heq] at heq'
      obtain ⟨hk, _⟩ := Frame.call.inj heq'
      obtain ⟨rfl, rfl⟩ := Callback.part.inj hk
      exact (howed x hlacks).mono (List.subset_append_right gs fs)

omit [DecidableEq H] in
/-- A new `all`, with its calls standing in for the callbacks. -/
theorem newAll (h : b.Deliveries P fs) (hp : b.Pending P) {pms : List Nat} {done : Then H Sig}
    (hgoals : pms.map b.promises.goal = done.goals.map some)
    (hvalid : done.Valid P b.replica.core) :
    ({ b with alls := b.alls ++ [{ done := done, values := pms.map fun _ => none }] } :
      HotStuffBase H Sig).Deliveries P
        ((pms.zipIdx.map fun x => .call (.part b.alls.length x.2) true) ++ fs) := by
  obtain ⟨_, hl, hnew, hks⟩ := hp.newAll hgoals hvalid
  let a : All H Sig := { done := done, values := pms.map fun _ => none }
  let b₁ : HotStuffBase H Sig := { b with alls := b.alls ++ [a] }
  let gs : List (Frame H Sig) := pms.zipIdx.map fun x => .call (.part b.alls.length x.2) true
  have hl : b.Later P b₁ := hl
  have hlacks {ctx idx : Nat} {x : H} (hlacks : b₁.Lacks ctx x idx) :
      b.Lacks ctx x idx ∨ ctx = b.alls.length ∧ idx < pms.length := by
    obtain ⟨a', data, ha', hdone, hvalue⟩ := hlacks
    have ha' : (b.alls ++ [a])[ctx]? = some a' := ha'
    by_cases hlt : ctx < b.alls.length
    · rw [List.getElem?_append_left hlt] at ha'
      exact Or.inl ⟨a', data, ha', hdone, hvalue⟩
    · have hlen := (List.getElem?_eq_some_iff.mp ha').1
      rw [List.length_append, List.length_singleton] at hlen
      obtain rfl : ctx = b.alls.length := by omega
      rw [List.getElem?_append_right (Nat.le_refl _), Nat.sub_self] at ha'
      obtain rfl : a = a' := Option.some.inj ha'
      have hidx := (List.getElem?_eq_some_iff.mp hvalue).1
      rw [List.length_map] at hidx
      exact Or.inr ⟨rfl, hidx⟩
  have hpart {idx : Nat} (hidx : idx < pms.length) :
      (Frame.call (.part b.alls.length idx) true : Frame H Sig) ∈ gs := by
    refine List.mem_map.mpr ⟨(pms[idx], idx), ?_, rfl⟩
    rw [List.mem_zipIdx_iff_getElem?]
    exact List.getElem?_eq_getElem hidx
  have hof {f : Frame H Sig} (hf : f ∈ gs ++ fs) :
      f ∈ fs ∨ ∃ x ∈ pms.zipIdx, f = .call (.part b.alls.length x.2) true := by
    obtain hf | hf := List.mem_append.mp hf
    · obtain ⟨x, hx, rfl⟩ := List.mem_map.mp hf
      exact Or.inr ⟨x, hx, rfl⟩
    · exact Or.inl hf
  refine ⟨fun x pm hpm => ?_, fun ctx x idx hlacks' => ?_, fun a' ha' x data hdone => ?_,
    h.fair.mono (fun _ _ hm => hm) (fun _ _ hw => hl.waits hw) fun _ hu => hu, fun k v hv => ?_,
    h.fetchKept, h.deliveryKept, fun f hf => ?_, h.fetchKnown, h.deliveryKnown, fun x hx => ?_,
    fun x hx => ?_⟩
  · obtain hheld | ⟨f, hf, hx⟩ | ⟨ctx, idx, a', data, ha', hrest⟩ := h.entries x pm hpm
    · exact Or.inl hheld
    · exact Or.inr (Or.inl ⟨f, List.mem_append_right _ hf, hx⟩)
    · refine Or.inr (Or.inr ⟨ctx, idx, a', data, ?_, hrest⟩)
      exact (List.getElem?_append_left (List.getElem?_eq_some_iff.mp ha').1).trans ha'
  · obtain hold | ⟨rfl, hidx⟩ := hlacks hlacks'
    · exact (h.parts ctx x idx hold).mono (List.subset_append_right _ _)
    · exact Or.inr ⟨true, List.mem_append_left _ (hpart hidx)⟩
  · obtain ha' | ha' := List.mem_append.mp ha'
    · exact h.verdicts a' ha' x data hdone
    · obtain rfl := List.mem_singleton.mp ha'
      have hdone : done = .onDeliverBlk x data := hdone
      have hlen := congrArg List.length hgoals
      rw [hdone, Then.goals, List.length_map, List.length_map, List.length_cons] at hlen
      obtain ⟨pm, pms', rfl⟩ := List.exists_cons_of_length_eq_add_one hlen
      exact Or.inl rfl
  · obtain hv | ⟨x, hx, heq⟩ := hof hv
    · obtain ⟨g, hw, hm⟩ := h.ready k v hv
      exact ⟨g, hl.waits hw, hm⟩
    · obtain ⟨rfl, rfl⟩ := Frame.call.inj heq
      obtain ⟨g, _, hw⟩ := hks _ (List.mem_map_of_mem hx)
      exact ⟨g, hw, fun _ _ => rfl⟩
  · obtain hf | ⟨x, _, rfl⟩ := hof hf
    · exact h.collected f hf
    · exact fun pm hpm => by cases hpm
  · obtain hx | ⟨y, _, heq⟩ := hof hx
    · exact h.eraseFetch x hx
    · cases heq
  · obtain hx | ⟨y, _, heq⟩ := hof hx
    · exact h.eraseDelivery x hx
    · cases heq

omit [DecidableEq H] in
/-- An `all` is made; that of a delivery is made of promises that have not been rejected. -/
theorem await (h : b.Deliveries P fs) (hp : b.Pending P) {pms : List Nat} {done : Then H Sig}
    (hgoals : pms.map b.promises.goal = done.goals.map some)
    (hvalid : done.Valid P b.replica.core)
    (hkept : ∀ x data, done = .onDeliverBlk x data →
      ∀ pm ∈ pms, b.promises.isRejected pm = false) :
    ∃ gs, (b.await pms done).frames = gs ++ b.frames ∧ (b.await pms done).Deliveries P (gs ++ fs) := by
  obtain ⟨_, _, _, hks⟩ := hp.newAll hgoals hvalid
  have h₁ := h.newAll hp hgoals hvalid
  let parts : List (Nat × Callback H) := pms.zipIdx.map fun x => (x.1, .part b.alls.length x.2)
  let b₁ : HotStuffBase H Sig :=
    { b with alls := b.alls ++ [{ done := done, values := pms.map fun _ => none }] }
  have h₁ : b₁.Deliveries P
      ((pms.zipIdx.map fun x => .call (.part b.alls.length x.2) true) ++ fs) := h₁
  have hks : ∀ x ∈ parts, ∃ g, b.promises.goal x.1 = some g ∧ b₁.Waits P x.2 g := hks
  obtain ⟨hfair, hcalls⟩ := h₁.fair.subscribeAll hks
  have h₂ := h₁.settled (fun pm k hk => Or.inl (hk.subscribeAll parts)) (goal_subscribeAll parts)
    (isRejected_subscribeAll parts) (fun pm hpend => by rwa [isPending_subscribeAll] at hpend) hfair
    hcalls
  refine ⟨calls (b.promises.subscribeAll parts).2, rfl, withFrames (b := { b₁ with
    promises := (b.promises.subscribeAll parts).1 }) (dropCalls (swap _ _ h₂) fun f hf => ?_) _⟩
  obtain ⟨x, hx, rfl⟩ := List.mem_map.mp hf
  refine ⟨b.alls.length, x.2, true, rfl, fun y ⟨a, data, ha, hdone, _⟩ => ?_⟩
  have ha : (b.alls ++ [{ done := done, values := pms.map fun _ => none }])[b.alls.length]? =
      some a := ha
  rw [List.getElem?_append_right (Nat.le_refl _), Nat.sub_self] at ha
  obtain rfl := Option.some.inj ha
  have hnot (z : Nat × Callback H) (hz : z ∈ parts) :
      (∃ g, b.promises.goal z.1 = some g) ∧ b.promises.isRejected z.1 = false := by
    obtain ⟨g, hg, _⟩ := hks z hz
    obtain ⟨w, hw, rfl⟩ := List.mem_map.mp hz
    have hmem := List.mem_of_getElem? (List.mem_zipIdx_iff_getElem?.mp hw)
    exact ⟨⟨g, hg⟩, hkept y data hdone _ hmem⟩
  obtain hheld | ⟨v, hv⟩ := subscribeAll_held hnot (List.mem_map_of_mem hx)
  · exact Or.inl ⟨_, hheld⟩
  · exact Or.inr ⟨v, List.mem_append_left _ (List.mem_map.mpr ⟨_, hv, rfl⟩)⟩

end Deliveries

end HotStuffBase
end LibHotStuff
