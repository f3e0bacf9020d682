import LibHotStuff.Proofs.DeliveryStarts

/-! Deliveries end: entries are erased, and `on_deliver_blk` settles a promise. -/

namespace LibHotStuff

open Promises

variable {H Sig : Type} {P : Primitives H Sig} [DecidableEq H]

namespace HotStuffBase

variable {b b' : HotStuffBase H Sig} {fs fs' : List (Frame H Sig)} {blk : H}
  {ctx idx : Nat} {v : Bool}

namespace Deliveries

/-- The promise of an entry is rejected, and the entry erased: no other delivery has waited for
it. -/
theorem reject (h : b.Deliveries P fs) (hp : b.Pending P) {pm : Nat}
    (hpm : b.blkDeliveryWaiting blk = some pm)
    (hparts : ∀ ctx idx, b.promises.Holds pm (.part ctx idx) → b.delivers ctx = false)
    (hcollected : ∀ f ∈ fs, pm ∉ f.collected) :
    ({ b with
      promises := b.promises.reject pm
      blkDeliveryWaiting := Function.update b.blkDeliveryWaiting blk none } :
        HotStuffBase H Sig).Deliveries P fs := by
  have hgoal := hp.deliveryWaiting blk pm hpm
  have hkept {q : Nat} (hq : b.promises.isRejected q = false) (hne : q ≠ pm) :
      (b.promises.reject pm).isRejected q = false := by
    rw [isRejected_reject, hq, decide_eq_false hne]
    rfl
  have hset {q : Nat} (hq : b.promises.isPending q = false) :
      (b.promises.reject pm).isPending q = false := by
    rw [isPending_reject, hq]
    rfl
  have hpend {q : Nat} (hq : (b.promises.reject pm).isPending q = true) :
      b.promises.isPending q = true ∧ q ≠ pm := by
    rw [isPending_reject, Bool.and_eq_true, decide_eq_true_eq] at hq
    exact hq
  have hentry {x : H} {q : Nat} (hx : Function.update b.blkDeliveryWaiting blk none x = some q) :
      b.blkDeliveryWaiting x = some q ∧ q ≠ pm := by
    have hold := Pending.of_erase hx
    refine ⟨hold, ?_⟩
    rintro rfl
    have hgoal' := hp.deliveryWaiting x q hold
    rw [hgoal] at hgoal'
    obtain rfl := Awaited.delivered.inj (Option.some.inj hgoal')
    rw [Function.update_self] at hx
    cases hx
  refine ⟨fun x q hx => ?_, fun ctx x idx hlacks => ?_, h.verdicts, h.fair.reject, h.ready,
    fun x q hx => hkept (h.fetchKept x q hx) ?_, fun x q hx => ?_, fun f hf q hq => ?_,
    fun x q hg hq => ?_, fun x q hg hq => ?_, fun x hx => ?_, fun x hx => ?_⟩
  · obtain ⟨i, hi⟩ | hrest := h.entries x q (hentry hx).1
    · refine Or.inl ⟨i, hi.reject ?_⟩
      rintro rfl
      obtain ⟨g, ks, hat, hk⟩ := hi
      have hwaits := (hp.sound.pending _ (List.mem_of_getElem? hat) ks rfl).2 _ hk
      rw [goal_of_getElem? hat] at hgoal
      obtain rfl := Option.some.inj hgoal
      cases hwaits.1
    · exact Or.inr hrest
  · obtain ⟨i, hi⟩ | hcall := h.parts ctx x idx hlacks
    · refine Or.inl ⟨i, hi.reject ?_⟩
      rintro rfl
      have hnot := hparts ctx idx hi
      obtain ⟨a, data, ha, hdone, _⟩ := hlacks
      have ha : b.alls[ctx]? = some a := ha
      rw [delivers, doneAt, ha, Option.map_some, hdone] at hnot
      cases hnot
    · exact Or.inr hcall
  · rintro rfl
    have hgoal' := hp.fetchWaiting x q hx
    rw [hgoal] at hgoal'
    cases hgoal'
  · obtain ⟨hold, hne⟩ := hentry hx
    exact hkept (h.deliveryKept x q hold) hne
  · refine hkept (h.collected f hf q hq) ?_
    rintro rfl
    exact hcollected f hf hq
  · rw [goal_reject] at hg
    exact h.fetchKnown x q hg (hpend hq).1
  · rw [goal_reject] at hg
    obtain ⟨hold, hne⟩ := hpend hq
    have hx := h.deliveryKnown x q hg hold
    refine (Function.update_of_ne ?_ ..).trans hx
    rintro rfl
    rw [hpm] at hx
    exact hne (Option.some.inj hx).symm
  · obtain ⟨hst, hgone⟩ := h.eraseFetch x hx
    exact ⟨hst, fun q hq => hset (hgone q hq)⟩
  · obtain ⟨hd, hgone⟩ := h.eraseDelivery x hx
    exact ⟨hd, fun q hq => hset (hgone q (hentry hq).1)⟩

/-- The entry of a fetch goes. -/
theorem forgetFetch (h : b.Deliveries P (.eraseFetch blk :: fs)) :
    ({ b with blkFetchWaiting := Function.update b.blkFetchWaiting blk none } :
      HotStuffBase H Sig).Deliveries P fs := by
  obtain ⟨_, hset⟩ := h.eraseFetch blk (List.mem_cons_self ..)
  have h' := h.skip rfl fun _ _ _ heq => nomatch heq
  refine ⟨h'.entries, h'.parts, h'.verdicts, h'.fair, h'.ready,
    fun x pm hpm => h'.fetchKept x pm (Pending.of_erase hpm), h'.deliveryKept, h'.collected,
    fun x pm hg hpend => ?_, h'.deliveryKnown, fun x hx => ⟨(h'.eraseFetch x hx).1, fun pm hpm => ?_⟩,
    h'.eraseDelivery⟩
  · have hold := h'.fetchKnown x pm hg hpend
    refine (Function.update_of_ne ?_ ..).trans hold
    rintro rfl
    rw [hset pm hold] at hpend
    cases hpend
  · exact (h'.eraseFetch x hx).2 pm (Pending.of_erase hpm)

/-- The entry of a delivery goes. -/
theorem forgetDelivery (h : b.Deliveries P (.eraseDelivery blk :: fs)) :
    ({ b with blkDeliveryWaiting := Function.update b.blkDeliveryWaiting blk none } :
      HotStuffBase H Sig).Deliveries P fs := by
  obtain ⟨_, hset⟩ := h.eraseDelivery blk (List.mem_cons_self ..)
  refine Deliveries.drop (f := .eraseDelivery blk) ⟨fun x pm hpm => ?_, h.parts, h.verdicts, h.fair,
    h.ready, h.fetchKept, fun x pm hpm => h.deliveryKept x pm (Pending.of_erase hpm), h.collected,
    h.fetchKnown, fun x pm hg hpend => ?_, h.eraseFetch,
    fun x hx => ⟨(h.eraseDelivery x hx).1, fun pm hpm => ?_⟩⟩ (fun x pm hx hpm => ?_)
      fun _ _ _ _ heq => nomatch heq
  · exact h.entries x pm (Pending.of_erase hpm)
  · have hold := h.deliveryKnown x pm hg hpend
    refine (Function.update_of_ne ?_ ..).trans hold
    rintro rfl
    rw [hset pm hold] at hpend
    cases hpend
  · exact (h.eraseDelivery x hx).2 pm (Pending.of_erase hpm)
  · obtain rfl := Option.some.inj hx
    have hpm : Function.update b.blkDeliveryWaiting blk none blk = some pm := hpm
    rw [Function.update_self] at hpm
    cases hpm

omit [DecidableEq H] in
/-- A value is kept with the others of its `all`; the delivery goes on. -/
theorem keep (h : b.Deliveries P (.call (.part ctx idx) v :: fs)) {a : All H Sig}
    (ha : b.alls[ctx]? = some a)
    (hstay : ∀ x data, a.done = .onDeliverBlk x data →
      (∃ i : Nat, (a.values.set idx (some v))[i]? = some none) ∨ ∃ f ∈ fs, f.delivering = some x) :
    ({ b with alls := b.alls.set ctx { a with values := a.values.set idx (some v) } } :
      HotStuffBase H Sig).Deliveries P fs := by
  have hlt := (List.getElem?_eq_some_iff.mp ha).1
  generalize hvalues : a.values.set idx (some v) = values at hstay ⊢
  let b₁ : HotStuffBase H Sig := { b with alls := b.alls.set ctx { a with values := values } }
  have hwaits (k : Callback H) (g : Awaited H Sig) (hw : b.Waits P k g) : b₁.Waits P k g := by
    cases k with
    | fetched x => exact hw
    | part i j =>
      obtain ⟨d, hd, hg⟩ := hw
      exact ⟨d, (doneAt_set ha values i).trans hd, hg⟩
  have hself : b₁.alls[ctx]? = some { a with values := values } := List.getElem?_set_self hlt
  have hother {i : Nat} (hi : ctx ≠ i) : b₁.alls[i]? = b.alls[i]? := List.getElem?_set_ne hi
  refine ⟨fun x pm hpm => ?_, fun i x j hlacks => ?_, fun a' ha' x data hdone => ?_,
    h.fair.mono (fun _ _ hm => hm) hwaits fun _ hu => hu, fun k w hw => ?_, h.fetchKept,
    h.deliveryKept, fun f hf => h.collected f (List.mem_cons_of_mem _ hf), h.fetchKnown,
    h.deliveryKnown, fun x hx => h.eraseFetch x (List.mem_cons_of_mem _ hx),
    fun x hx => h.eraseDelivery x (List.mem_cons_of_mem _ hx)⟩
  · obtain hheld | ⟨f, hf, hx⟩ | ⟨i, j, a', data, ha', hdone, hvalue⟩ := h.entries x pm hpm
    · exact Or.inl hheld
    · obtain rfl | hf := List.mem_cons.mp hf
      · cases hx
      · exact Or.inr (Or.inl ⟨f, hf, hx⟩)
    · by_cases hi : ctx = i
      · subst hi
        obtain rfl := Option.some.inj (ha.symm.trans ha')
        obtain ⟨j, hj⟩ | hframe := hstay x data hdone
        · exact Or.inr (Or.inr ⟨ctx, j, _, data, hself, hdone, hj⟩)
        · exact Or.inr (Or.inl hframe)
      · exact Or.inr (Or.inr ⟨i, j, a', data, (hother hi).trans ha', hdone, hvalue⟩)
  · obtain ⟨a', data, ha', hdone, hvalue⟩ := hlacks
    by_cases hi : ctx = i
    · subst hi
      obtain rfl := Option.some.inj (hself.symm.trans ha')
      have hvalue : values[j]? = some none := hvalue
      have hj : idx ≠ j := by
        rintro rfl
        have hidx := (List.getElem?_eq_some_iff.mp hvalue).1
        rw [← hvalues, List.length_set] at hidx
        rw [← hvalues, List.getElem?_set_self hidx] at hvalue
        cases hvalue
      rw [← hvalues, List.getElem?_set_ne hj] at hvalue
      obtain hheld | ⟨w, hw⟩ := h.parts ctx x j ⟨a, data, ha, hdone, hvalue⟩
      · exact Or.inl hheld
      · obtain heq | hw := List.mem_cons.mp hw
        · obtain ⟨hk, _⟩ := Frame.call.inj heq
          exact absurd (Callback.part.inj hk).2.symm hj
        · exact Or.inr ⟨w, hw⟩
    · obtain hheld | ⟨w, hw⟩ := h.parts i x j ⟨a', data, (hother hi).symm.trans ha', hdone, hvalue⟩
      · exact Or.inl hheld
      · obtain heq | hw := List.mem_cons.mp hw
        · obtain ⟨hk, _⟩ := Frame.call.inj heq
          exact absurd (Callback.part.inj hk).1.symm hi
        · exact Or.inr ⟨w, hw⟩
  · obtain hold | rfl := List.mem_or_eq_of_mem_set ha'
    · exact h.verdicts a' hold x data hdone
    · have hdone : a.done = .onDeliverBlk x data := hdone
      have hverdict := h.verdicts a (List.mem_of_getElem? ha) x data hdone
      change values[0]? = some none ∨ values[0]? = some (some true)
      rw [← hvalues]
      by_cases hidx : idx = 0
      · subst hidx
        have hlen : 0 < a.values.length := by
          obtain hverdict | hverdict := hverdict
          · exact (List.getElem?_eq_some_iff.mp hverdict).1
          · exact (List.getElem?_eq_some_iff.mp hverdict).1
        obtain ⟨g, ⟨d, hd, hg⟩, hfair⟩ := h.ready _ v (List.mem_cons_self ..)
        rw [doneAt, ha, Option.map_some, hdone] at hd
        obtain rfl := Option.some.inj hd
        have hv : v = true := hfair data.qc (Option.some.inj hg).symm
        rw [List.getElem?_set_self hlen, hv]
        exact Or.inr rfl
      · rw [List.getElem?_set_ne hidx]
        exact hverdict
  · obtain ⟨g, hg, hm⟩ := h.ready k w (List.mem_cons_of_mem _ hw)
    exact ⟨g, hwaits k g hg, hm⟩

/-- The callback of `async_fetch_blk`: the certificate is right, or the workers get it. -/
theorem onFetched (h : b.Deliveries P (.call (.fetched blk) v :: fs)) (hp : b.Pending P)
    (hqc : ∀ stored, b.core.storage blk = some stored →
      (blk = b.core.b0 ∨ stored.qc.objHash = b.core.b0) ∨
        stored.qc.asyncVerify b.core.config = .ok none) :
    (b.onFetched blk).halted = true ∨ ∃ gs, (b.onFetched blk).frames = gs ++ b.frames ∧
      (b.onFetched blk).Deliveries P (gs ++ fs) := by
  unfold HotStuffBase.onFetched
  split
  · exact Or.inl rfl
  rename_i stored hst
  have hverified : ∃ r, (if blk = b.core.b0 ∨ stored.qc.objHash = b.core.b0 then .ok (some true)
      else stored.qc.asyncVerify b.core.config : Except Error (Option Bool)) = .ok r ∧
        (r = none ∨ r = some true) ∧ (r = none → stored.qc.asyncVerify b.core.config = .ok none) := by
    split
    · exact ⟨some true, rfl, Or.inr rfl, fun hr => by cases hr⟩
    · rename_i hnot
      have hnone := (hqc stored hst).resolve_left hnot
      exact ⟨none, hnone, Or.inl rfl, fun _ => hnone⟩
  obtain ⟨r, hr, hcases, hnone⟩ := hverified
  obtain ⟨_, ⟨_, hgen⟩, _⟩ := h.ready _ _ (List.mem_cons_self ..)
  obtain ⟨hp₁, _, hgoal₁⟩ := hp.newPromise _ _ (hp.verifying hgen hr)
  have h₁ : (b.newPromise (.certified stored.qc) (r.elim (.pending []) .fulfilled)).1.Deliveries P
      (.call (.fetched blk) v :: fs) := by
    apply h.newPromise hp
    obtain rfl | rfl := hcases
    · exact Or.inl ⟨rfl, fun x => ⟨(fun h => by cases h), fun h => by cases h⟩⟩
    · exact Or.inr ⟨true, rfl, fun _ _ => rfl⟩
  obtain ⟨h₂, hkeeps, hkept⟩ := h₁.asyncFetchBlk hp₁ stored.qc.objHash
  have hfirst : (b.newPromise (.certified stored.qc)
      (r.elim (.pending []) .fulfilled)).1.promises.isRejected b.promises.length = false := by
    change isRejected (b.promises ++ [_]) b.promises.length = false
    rw [isRejected, state_new]
    obtain rfl | rfl := hcases
    · rfl
    · rfl
  dsimp only
  rw [hr]
  let f := (b.newPromise (.certified stored.qc) (r.elim (.pending []) .fulfilled)).1.asyncFetchBlk
    stored.qc.objHash
  let g : Frame H Sig :=
    .deliverParents blk stored.toBlockData stored.parentHashes [b.promises.length, f.2]
  have hlast : f.1.Deliveries P ([g] ++ fs) := by
    refine Deliveries.drop (swap [g] [.call (.fetched blk) v] (h₂.push [g] ?_ ?_ ?_ ?_))
      (fun x pm hx _ => ?_) fun _ _ _ _ heq => by cases heq
    · intro k w hw
      have hw : Frame.call k w = g := List.mem_singleton.mp hw
      simp [g] at hw
    · intro f hf pm hpm
      rw [List.mem_singleton.mp hf] at hpm
      obtain rfl | hpm := List.mem_cons.mp hpm
      · exact hkeeps _ _ hgoal₁ hfirst
      · rw [List.mem_singleton.mp hpm]
        exact hkept
    · intro x hx
      have hx : Frame.eraseFetch x = g := List.mem_singleton.mp hx
      simp [g] at hx
    · intro x hx
      have hx : Frame.eraseDelivery x = g := List.mem_singleton.mp hx
      simp [g] at hx
    · exact Or.inr (Or.inl ⟨g, List.mem_cons_self .., hx⟩)
  refine Or.inr ⟨[g], ?_, hlast.withFrames _⟩
  change [g] ++ (HotStuffBase.asyncFetchBlk _ _).1.frames = _
  rw [asyncFetchBlk_frames]
  rfl

omit [DecidableEq H] in
/-- The replica goes on. -/
theorem settle (h : b.Deliveries P fs) {nd : Replica H Sig} (hl : b.Later P (b.settle nd)) :
    (b.settle nd).Deliveries P fs :=
  (h.replica nd hl.core.stored hl.core.delivered).withFrames _

omit [DecidableEq H] in
/-- Those who wait for a delivered block are told. -/
theorem tell (h : b.Deliveries P (.call (.fetched blk) true :: fs))
    (hd : b.replica.core.delivered blk = true) {pm : Nat}
    (hpm : b.blkDeliveryWaiting blk = some pm) :
    ({ b with promises := (b.promises.resolve pm true).1 } : HotStuffBase H Sig).Deliveries P
      (calls (b.promises.resolve pm true).2 ++ [.eraseDelivery blk] ++ fs) := by
  have h₁ := h.resolve pm true fun _ _ _ _ => rfl
  have h₂ := h₁.push [.eraseDelivery blk] (fun k w hw => nomatch List.mem_singleton.mp hw)
    (fun f hf q hq => ?_) (fun x hx => nomatch List.mem_singleton.mp hx) fun x hx => ?_
  · have h₃ : ({ b with promises := (b.promises.resolve pm true).1 } : HotStuffBase H Sig).Deliveries P
        (.call (.fetched blk) true ::
          (calls (b.promises.resolve pm true).2 ++ [.eraseDelivery blk] ++ fs)) := by
      refine h₂.congr (fun f hf => ?_) fun f hf => ?_
      · simp only [List.mem_append, List.mem_cons, List.not_mem_nil, or_false] at hf ⊢
        tauto
      · simp only [List.mem_append, List.mem_cons, List.not_mem_nil, or_false] at hf ⊢
        tauto
    refine h₃.drop (fun x _ hx _ => Or.inr (Or.inl ⟨.eraseDelivery blk, ?_, hx⟩))
      fun _ _ _ _ heq => nomatch heq
    exact List.mem_append_left _ (List.mem_append_right _ (List.mem_singleton_self _))
  · rw [List.mem_singleton.mp hf] at hq
    cases hq
  · obtain rfl := Frame.eraseDelivery.inj (List.mem_singleton.mp hx)
    refine ⟨hd, fun q hq => ?_⟩
    have hq : b.blkDeliveryWaiting x = some q := hq
    rw [hpm] at hq
    rw [← Option.some.inj hq, isPending_resolve, decide_eq_false (not_not.mpr rfl), Bool.and_false]

/-- A block is delivered, and those who wait for it are told, or all of it has been done before. -/
theorem onDeliverBlk (h : b.Deliveries P (.call (.fetched blk) true :: fs)) (hp : b.Pending P)
    (hidle : b.replica.idle = true) (hd : Replica.deliverable P b.replica.core blk = true)
    (hrejects : ∀ pm, b.core.delivered blk = true → b.blkDeliveryWaiting blk = some pm →
      (∀ ctx idx, b.promises.Holds pm (.part ctx idx) → b.delivers ctx = false) ∧
        ∀ f ∈ fs, pm ∉ f.collected) :
    (b.onDeliverBlk blk).stopped = true ∨ ∃ gs, (b.onDeliverBlk blk).frames = gs ++ b.frames ∧
      (b.onDeliverBlk blk).Deliveries P (gs ++ fs) := by
  have hturn : Turn P b.replica (b.replica.absorb [] [] (b.replica.core.onDeliverBlk blk)) := by
    refine ⟨.deliver b.replica.core.id blk, rfl, ?_⟩
    rw [Replica.handle, hidle, hd]
    rfl
  obtain ⟨hp₁, hl⟩ := hp.turn hturn
  have h₁ := h.settle hl
  obtain ⟨_, _, _, hthrow⟩ := Core.deliver_grows hp.wellFormed hd
  have hdone := (Core.onDeliverBlk_grows hp.wellFormed blk rfl (hthrow _)).2.2.2
  have hdata := hd
  unfold Replica.deliverable at hd
  unfold HotStuffBase.onDeliverBlk
  split
  · exact Or.inl rfl
  rename_i stored hst
  have hst : b.replica.core.storage blk = some stored := hst
  simp only [hst, Bool.and_eq_true] at hd
  have hpar : stored.parentHashes.all b.core.delivered = true := hd.2
  rw [if_pos hpar]
  dsimp only
  cases hexit : (b.core.onDeliverBlk blk).exit with
  | some e =>
    rw [if_pos (show (some e).isSome = true from rfl)]
    have hexit : (b.replica.core.onDeliverBlk blk).exit = some e := hexit
    cases e with
    | throw e => exact absurd hexit (hthrow e)
    | assertion | undefined | diverges =>
      simp [stopped, HotStuffBase.settle, Replica.absorb, core, hexit]
  | none =>
    have hexit : (b.replica.core.onDeliverBlk blk).exit = none := hexit
    have hdel : (b.replica.absorb [] [] (b.replica.core.onDeliverBlk blk)).core.delivered blk =
        true := by
      rw [Replica.absorb_core, hdone hexit]
    have hframes : (b.settle (b.replica.absorb [] [] (b.replica.core.onDeliverBlk blk))).frames =
        b.frames := by
      have hhalted := (Replica.idle_iff.mp hidle).1
      simp [HotStuffBase.settle, Replica.absorb, hexit, hhalted]
    rw [if_neg (show ¬ (none : Option Fault).isSome = true from Bool.false_ne_true)]
    generalize hc : b.settle (b.replica.absorb [] [] (b.replica.core.onDeliverBlk blk)) = c at h₁ hp₁ hframes
    have hc' : b.settle (b.replica.absorb [] [] (b.core.onDeliverBlk blk)) = c := hc
    rw [hc']
    have hdelc : c.replica.core.delivered blk = true := by
      rw [← hc]
      exact hdel
    have hwaiting : c.blkDeliveryWaiting = b.blkDeliveryWaiting := by
      rw [← hc]
      rfl
    have hpromises : c.promises = b.promises := by
      rw [← hc]
      rfl
    have halls (ctx : Nat) : c.delivers ctx = b.delivers ctx := by
      rw [← hc]
      rfl
    right
    split
    · rename_i hnone
      refine ⟨[], hframes, h₁.drop (fun x pm hx hpm => ?_) fun _ _ _ _ heq => by cases heq⟩
      obtain rfl := Option.some.inj hx
      rw [hnone] at hpm
      cases hpm
    rename_i pm hpm
    split
    · rename_i hbefore
      have hold : b.core.delivered blk = true := by
        have hd₀ := Core.delivered_of hst
        rw [hbefore] at hd₀
        exact hd₀
      obtain ⟨hparts, hcollected⟩ := hrejects pm hold (hwaiting ▸ hpm)
      have h₂ := h₁.reject hp₁ hpm (fun ctx idx hheld => ?_) fun f hf => ?_
      refine ⟨[], hframes, h₂.drop (fun x q hx hq => ?_) fun _ _ _ _ heq => by cases heq⟩
      · obtain rfl := Option.some.inj hx
        have hq : Function.update c.blkDeliveryWaiting blk none blk = some q := hq
        rw [Function.update_self] at hq
        cases hq
      · rw [hpromises] at hheld
        rw [halls]
        exact hparts ctx idx hheld
      · obtain rfl | hf := List.mem_cons.mp hf
        · exact List.not_mem_nil
        · exact hcollected f hf
    · refine ⟨calls (c.promises.resolve pm true).2 ++ [.eraseDelivery blk], ?_, ?_⟩
      · change _ ++ c.frames = _
        rw [hframes]
      · exact (h₁.tell hdelc hpm).withFrames _

end Deliveries

end HotStuffBase
end LibHotStuff
