import LibHotStuff.Proofs.DeliveryEnds

/-! One turn of a handler that has still something to do. -/

namespace LibHotStuff

open Promises

variable {H Sig : Type} {P : Primitives H Sig} [DecidableEq H]

namespace HotStuffBase

variable {b b' : HotStuffBase H Sig} {fs fs' : List (Frame H Sig)} {blk : H}
  {ctx idx : Nat} {v : Bool}

/-- The handler goes on, possibly with more frames than `fs`, or it ends. -/
def Continues (P : Primitives H Sig) (b b' : HotStuffBase H Sig) (fs : List (Frame H Sig)) : Prop :=
  b'.stopped = true ∨ (∃ gs, b'.frames = gs ++ b.frames ∧ b'.Deliveries P (gs ++ fs)) ∨
    b.throws b' = true ∧ b'.frames = [] ∧ b'.Deliveries P fs ∧
      ∀ ctx, b'.delivers ctx = b.delivers ctx

omit [DecidableEq H] in
/-- The same frames and the same `all`s of deliveries before. -/
theorem Continues.of_delivers {b₁ : HotStuffBase H Sig} (h : b₁.Continues P b' fs)
    (hframes : b₁.frames = b.frames) (hthrows : b₁.throws b' = b.throws b')
    (hdelivers : ∀ ctx, b₁.delivers ctx = b.delivers ctx) : b.Continues P b' fs := by
  obtain hstop | ⟨gs, hgs, hd⟩ | ⟨hthrow, hnil, hd, hsame⟩ := h
  · exact Or.inl hstop
  · exact Or.inr (Or.inl ⟨gs, hframes ▸ hgs, hd⟩)
  · exact Or.inr (Or.inr ⟨hthrows ▸ hthrow, hnil, hd, fun ctx => (hsame ctx).trans (hdelivers ctx)⟩)

namespace Deliveries

omit [DecidableEq H] in
theorem continues (h : b'.Deliveries P fs) (hframes : b'.frames = b.frames) : b.Continues P b' fs :=
  Or.inr (Or.inl ⟨[], hframes, h⟩)

omit [DecidableEq H] in
theorem settle_continues (h : b.Deliveries P fs) {nd : Replica H Sig}
    (hl : b.Later P (b.settle nd)) : b.Continues P (b.settle nd) fs := by
  have hsettled := h.settle hl
  by_cases hthrown : nd.thrown = b.replica.thrown
  · cases hhalted : nd.halted with
    | true =>
      left
      simp [stopped, HotStuffBase.settle, hhalted]
    | false =>
      refine Or.inr (Or.inl ⟨[], ?_, hsettled⟩)
      simp [HotStuffBase.settle, hthrown, hhalted]
  · refine Or.inr (Or.inr ⟨?_, ?_, hsettled, fun _ => rfl⟩)
    · simp [throws, HotStuffBase.settle, hthrown]
    · simp [HotStuffBase.settle, hthrown]

omit [DecidableEq H] in
theorem throw (h : b.Deliveries P fs) (e : Error) : (b.throw e).Deliveries P fs :=
  ⟨h.entries, h.parts, h.verdicts, h.fair, h.ready, h.fetchKept, h.deliveryKept, h.collected,
    h.fetchKnown, h.deliveryKnown, h.eraseFetch, h.eraseDelivery⟩

omit [DecidableEq H] in
theorem throw_continues (h : b.Deliveries P fs) (e : Error) : b.Continues P (b.throw e) fs := by
  refine Or.inr (Or.inr ⟨?_, rfl, h.throw e, fun _ => rfl⟩)
  simp [throws, HotStuffBase.throw]

/-- The values of a delivery have all arrived, and the certificate is right. -/
theorem fulfil_delivery (h : b.Deliveries P (.call (.part ctx idx) v :: fs)) (hp : b.Pending P)
    (hidle : b.replica.idle = true) (hcall : b.CallOk P (.part ctx idx, v)) {a : All H Sig}
    (ha : b.alls[ctx]? = some a) {data : BlockData H Sig} (hdone : a.done = .onDeliverBlk blk data)
    (hall : (a.values.set idx (some v)).all Option.isSome = true)
    (hrejects : ∀ pm, b.core.delivered blk = true → b.blkDeliveryWaiting blk = some pm →
      (∀ ctx idx, b.promises.Holds pm (.part ctx idx) → b.delivers ctx = false) ∧
        ∀ f ∈ fs, pm ∉ f.collected) :
    let b₁ : HotStuffBase H Sig :=
      { b with alls := b.alls.set ctx { a with values := a.values.set idx (some v) } }
    (a.values.set idx (some v))[0]? = some (some true) ∧
      ((b₁.onDeliverBlk blk).stopped = true ∨
        ∃ gs, (b₁.onDeliverBlk blk).frames = gs ++ b.frames ∧
          (b₁.onDeliverBlk blk).Deliveries P (gs ++ fs)) := by
  intro b₁
  obtain ⟨hp₁, hvalid, hlen, hmet⟩ := hp.filled ha hcall
  have hp₁ : b₁.Pending P := hp₁
  rw [hdone] at hvalid hlen hmet
  have hcalled : b.Deliveries P (.call (.part ctx idx) v :: .call (.fetched blk) true :: fs) := by
    refine swap [.call (.fetched blk) true] [.call (.part ctx idx) v]
      (h.push [.call (.fetched blk) true] (fun k w hw => ?_) (fun f hf pm hpm => ?_)
        (fun x hx => ?_) fun x hx => ?_)
    · obtain ⟨rfl, rfl⟩ := Frame.call.inj (List.mem_singleton.mp hw)
      exact ⟨.fetched blk, ⟨rfl, hvalid.2.2⟩, fun _ _ => rfl⟩
    · rw [List.mem_singleton.mp hf] at hpm
      cases hpm
    · cases List.mem_singleton.mp hx
    · cases List.mem_singleton.mp hx
  have h₁ : b₁.Deliveries P (.call (.fetched blk) true :: fs) := by
    refine hcalled.keep ha fun x data' hdone' => Or.inr ⟨_, List.mem_cons_self .., ?_⟩
    rw [hdone] at hdone'
    obtain ⟨rfl, _⟩ := Then.onDeliverBlk.inj hdone'
    rfl
  have hmem : { a with values := a.values.set idx (some v) } ∈ b₁.alls :=
    List.mem_set (List.getElem?_eq_some_iff.mp ha).1 _
  have hvalue : (a.values.set idx (some v))[0]? = some (some true) := by
    refine (h₁.verdicts _ hmem blk data hdone).resolve_left fun hnone => ?_
    have hsome := List.all_eq_true.mp hall none (List.mem_of_getElem? hnone)
    cases hsome
  refine ⟨hvalue, ?_⟩
  have hd := hp₁.deliverable hvalid hmet hall hlen hvalue
  refine h₁.onDeliverBlk hp₁ hidle hd fun pm hdel hpm => ?_
  obtain ⟨hparts, hcollected⟩ := hrejects pm hdel hpm
  refine ⟨fun i j hheld => ?_, hcollected⟩
  have hnot := hparts i j hheld
  rw [delivers] at hnot ⊢
  rwa [doneAt_set ha]

/-- A value arrives at an `all`. -/
theorem fill (h : b.Deliveries P (.call (.part ctx idx) v :: fs)) (hp : b.Pending P)
    (hidle : b.replica.idle = true) (hcall : b.CallOk P (.part ctx idx, v)) (ord : List H)
    (hrejects : ∀ pm, b.rejects (.call (.part ctx idx) v) = some pm →
      (∀ ctx idx, b.promises.Holds pm (.part ctx idx) → b.delivers ctx = false) ∧
        ∀ f ∈ fs, pm ∉ f.collected) :
    b.Continues P (b.fill P ord ctx idx v) fs := by
  unfold HotStuffBase.fill
  split
  · rename_i hnone
    refine (h.skip rfl fun i j w heq => ?_).continues rfl
    obtain ⟨hk, _⟩ := Frame.call.inj heq
    obtain ⟨rfl, rfl⟩ := Callback.part.inj hk
    rw [delivers, doneAt, hnone]
    rfl
  rename_i a ha
  obtain ⟨hp₁, hvalid, hlen, hmet⟩ := hp.filled ha hcall
  dsimp only
  split
  swap
  · rename_i hopen
    refine (h.keep ha fun x data _ => Or.inl ?_).continues rfl
    rw [Bool.not_eq_true, List.all_eq_false] at hopen
    obtain ⟨o, hmem, hnone⟩ := hopen
    obtain ⟨i, hi⟩ := List.getElem?_of_mem hmem
    rw [Option.not_isSome_iff_eq_none] at hnone
    exact ⟨i, hnone ▸ hi⟩
  rename_i hall
  have hdelivers (i : Nat) : ({ b with alls := b.alls.set ctx { a with
      values := a.values.set idx (some v) } } : HotStuffBase H Sig).delivers i = b.delivers i := by
    rw [delivers, delivers, doneAt_set ha]
  obtain ⟨done, values⟩ := a
  cases done with
  | onDeliverBlk blk data =>
    obtain ⟨hvalue, hend⟩ := h.fulfil_delivery hp hidle hcall ha rfl hall fun pm hdel hpm => by
      refine hrejects pm ?_
      rw [rejects, ha]
      dsimp only at hall ⊢
      rw [hdel, hall, hpm]
      rfl
    unfold HotStuffBase.fulfil
    dsimp only at hvalue ⊢
    rw [if_pos hvalue]
    exact hend.imp id Or.inl
  | onReceiveProposal prop =>
    have hkeep := h.keep ha fun x data hdel => by cases hdel
    have hturn := Pending.proposalTurn (b := { b with alls := _ }) hidle ord hvalid hmet hall hlen
    exact (hkeep.settle_continues (hp₁.turn hturn).2).of_delivers rfl rfl hdelivers
  | onReceiveVote vote =>
    have hkeep := h.keep ha fun x data hdel => by cases hdel
    unfold HotStuffBase.fulfil
    dsimp only
    split
    · rename_i hv
      have hturn := Pending.voteTurn (b := { b with alls := _ }) hidle ord hvalid hmet hall hlen hv
      exact (hkeep.settle_continues (hp₁.turn hturn).2).of_delivers rfl rfl hdelivers
    · exact hkeep.continues rfl
  | sendBlocks replica hashes => exact (h.keep ha fun x data hdel => by cases hdel).continues rfl

omit [DecidableEq H] in
/-- The `all` of a delivery waits for its first value. -/
theorem await_lacks {pms : List Nat} (hpms : pms ≠ []) (data : BlockData H Sig) :
    (b.await pms (.onDeliverBlk blk data)).Lacks b.alls.length blk 0 := by
  refine ⟨⟨.onDeliverBlk blk data, pms.map fun _ => none⟩, data, ?_, rfl, ?_⟩
  · change (b.alls ++ [_])[b.alls.length]? = _
    rw [List.getElem?_append_right (Nat.le_refl _), Nat.sub_self]
    rfl
  · cases pms with
    | nil => exact absurd rfl hpms
    | cons pm pms => rfl

omit [DecidableEq H] in
/-- All parents have been asked for. -/
theorem awaitParents {data : BlockData H Sig} {pms : List Nat}
    (h : b.Deliveries P (.deliverParents blk data [] pms :: fs)) (hp : b.Pending P)
    (hf : b.FrameOk P (.deliverParents blk data [] pms)) :
    b.Continues P (b.await pms (.onDeliverBlk blk data)) fs := by
  obtain ⟨hvalid, gs, hgs, hall⟩ := hf
  rw [List.map_nil, List.append_nil] at hall
  have hgoals : pms.map b.promises.goal =
      (Then.onDeliverBlk blk data : Then H Sig).goals.map some := by
    rw [hgs, hall]
  have hpms : pms ≠ [] := by
    rintro rfl
    rw [List.map_nil, Then.goals, List.map_cons] at hgoals
    cases hgoals
  obtain ⟨fs', hframes, hd⟩ := h.await hp hgoals hvalid fun _ _ _ =>
    h.collected _ (List.mem_cons_self ..)
  refine Or.inr (Or.inl ⟨fs', hframes, Deliveries.drop (swap fs' [_] hd) (fun x pm hx _ => ?_)
    fun _ _ _ _ heq => by cases heq⟩)
  obtain rfl := Option.some.inj hx
  exact Or.inr (Or.inr ⟨_, _, await_lacks hpms data⟩)

/-- The next parent is asked for. -/
theorem nextParent {data : BlockData H Sig} {p : H} {ps : List H} {pms : List Nat}
    (h : b.Deliveries P (.deliverParents blk data (p :: ps) pms :: fs)) (hp : b.Pending P)
    (hf : b.FrameOk P (.deliverParents blk data (p :: ps) pms)) :
    b.Continues P (b.asyncDeliverBlk p fun pm => .deliverParents blk data ps (pms ++ [pm])) fs := by
  obtain ⟨_, goals, hgoals, _⟩ := hf
  obtain ⟨gs, pm, hframes, hd, hkeeps, hkept⟩ :=
    h.asyncDeliverBlk hp p fun pm => .deliverParents blk data ps (pms ++ [pm])
  have hold := h.collected _ (List.mem_cons_self ..)
  let f : Frame H Sig := .deliverParents blk data ps (pms ++ [pm])
  have hpush := hd.push [f] (fun k w hw => nomatch List.mem_singleton.mp hw) (fun g hg q hq => ?_)
    (fun x hx => nomatch List.mem_singleton.mp hx) fun x hx => nomatch List.mem_singleton.mp hx
  · refine Or.inr (Or.inl ⟨gs ++ [f], ?_, Deliveries.drop (f := .deliverParents blk data (p :: ps) pms)
      (hpush.congr (fun g hg => ?_) fun g hg => ?_) (fun x q hx _ => ?_)
        fun _ _ _ _ heq => nomatch heq⟩)
    · rw [hframes, List.append_assoc]
      rfl
    · simp only [List.mem_append, List.mem_cons, List.not_mem_nil, or_false] at hg ⊢
      tauto
    · simp only [List.mem_append, List.mem_cons, List.not_mem_nil, or_false] at hg ⊢
      tauto
    · refine Or.inr (Or.inl ⟨f, List.mem_append_left _ (List.mem_append_right _ ?_), hx⟩)
      exact List.mem_singleton_self f
  · rw [List.mem_singleton.mp hg] at hq
    obtain hq | hq := List.mem_append.mp hq
    · have hmem : b.promises.goal q ∈ goals.map some := by
        rw [← hgoals]
        exact List.mem_map_of_mem hq
      obtain ⟨a, _, ha⟩ := List.mem_map.mp hmem
      exact hkeeps q a ha.symm (hold q hq)
    · rw [List.mem_singleton.mp hq]
      exact hkept

/-- The fetch of a block has ended. -/
theorem onFetchBlk (h : b.Deliveries P (.onFetchBlk blk :: fs)) (ord : List H)
    (hst : (b.replica.core.storage blk).isSome) :
    b.Continues P (b.run P ord (.onFetchBlk blk)) fs := by
  have h' := h.skip rfl fun _ _ _ heq => nomatch heq
  unfold HotStuffBase.run
  dsimp only
  split
  · exact h'.continues rfl
  · rename_i pm hpm
    have h₁ := h'.resolve pm true fun _ _ _ _ => rfl
    have h₂ := h₁.push [.eraseFetch blk] (fun k w hw => nomatch List.mem_singleton.mp hw)
      (fun f hf q hq => ?_) (fun x hx => ?_) fun x hx => nomatch List.mem_singleton.mp hx
    · refine Or.inr (Or.inl ⟨calls (b.promises.resolve pm true).2 ++ [.eraseFetch blk], rfl, ?_⟩)
      rw [List.append_assoc]
      exact (swap [_] _ h₂).withFrames _
    · rw [List.mem_singleton.mp hf] at hq
      cases hq
    · obtain rfl := Frame.eraseFetch.inj (List.mem_singleton.mp hx)
      refine ⟨hst, fun q hq => ?_⟩
      have hq : b.blkFetchWaiting x = some q := hq
      rw [hpm] at hq
      rw [← Option.some.inj hq, isPending_resolve, decide_eq_false (not_not.mpr rfl),
        Bool.and_false]

/-- The handler goes on. -/
theorem run {f : Frame H Sig} (h : b.Deliveries P (f :: fs)) (hp : b.Pending P)
    (hidle : b.replica.idle = true) (hf : b.FrameOk P f) (ord : List H)
    (hqc : ∀ blk v, f = .call (.fetched blk) v → ∀ stored, b.core.storage blk = some stored →
      (blk = b.core.b0 ∨ stored.qc.objHash = b.core.b0) ∨
        stored.qc.asyncVerify b.core.config = .ok none)
    (hrejects : ∀ pm, b.rejects f = some pm →
      (∀ ctx idx, b.promises.Holds pm (.part ctx idx) → b.delivers ctx = false) ∧
        ∀ f ∈ fs, pm ∉ f.collected) :
    b.Continues P (b.run P ord f) fs := by
  cases f with
  | call k v =>
    cases k with
    | fetched blk =>
      obtain hhalted | hgoes := h.onFetched hp (hqc blk v rfl)
      · left
        change ((b.onFetched blk).halted || (b.onFetched blk).replica.halted) = true
        rw [hhalted]
        rfl
      · exact Or.inr (Or.inl hgoes)
    | part ctx idx => exact h.fill hp hidle hf ord hrejects
  | deliverParents blk data parents pms =>
    cases parents with
    | nil => exact h.awaitParents hp hf
    | cons p ps => exact h.nextParent hp hf
  | awaitProposal prop pm =>
    have h' := h.skip rfl fun _ _ _ heq => by cases heq
    have hgoals : [pm].map b.promises.goal =
        (Then.onReceiveProposal prop : Then H Sig).goals.map some := by
      simp only [List.map_cons, List.map_nil, hf.2, Then.goals]
    exact Or.inr (Or.inl (h'.await hp hgoals hf.1 fun _ _ heq => by cases heq))
  | awaitVote vote pm =>
    have h' := h.skip rfl fun _ _ _ heq => by cases heq
    unfold HotStuffBase.run
    dsimp only
    split
    · rename_i hvoter
      obtain ⟨hp₁, hl, hgoal⟩ := hp.newPromise (.signed vote) (.pending []) (Or.inl ⟨rfl, trivial⟩)
      have h₁ : (b.newPromise (.signed vote) (.pending [])).1.Deliveries P fs :=
        h'.newPromise hp (Or.inl ⟨rfl, fun x => ⟨(fun h => by cases h), fun h => by cases h⟩⟩)
      refine Or.inr (Or.inl (h₁.await hp₁ ?_ hvoter fun _ _ heq => by cases heq))
      have hfirst := hl.goals pm _ hf
      simp only [List.map_cons, List.map_nil, Then.goals]
      rw [hfirst, hgoal]
    · exact h'.throw_continues _
  | onFetchBlk blk => exact h.onFetchBlk ord hf
  | eraseFetch blk => exact h.forgetFetch.continues rfl
  | eraseDelivery blk => exact h.forgetDelivery.continues rfl

end Deliveries

end HotStuffBase
end LibHotStuff
