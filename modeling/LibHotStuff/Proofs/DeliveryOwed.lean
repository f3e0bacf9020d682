import LibHotStuff.Proofs.FetchWaiting

/-! What the entries of `blk_delivery_waiting` wait for, and who goes on with each delivery. -/

namespace LibHotStuff

open Promises

variable {H Sig : Type} {P : Primitives H Sig}

/-- The block whose delivery the frame is a part of. -/
def Frame.delivering : Frame H Sig → Option H
  | .call (.fetched blk) _ => some blk
  | .deliverParents blk _ _ _ => some blk
  | .eraseDelivery blk => some blk
  | _ => none

/-- The promises that the frame has collected for a delivery. -/
def Frame.collected : Frame H Sig → List Nat
  | .deliverParents _ _ _ pms => pms
  | _ => []

namespace HotStuffBase

/-- The `all` is one of a delivery. -/
def delivers (b : HotStuffBase H Sig) (ctx : Nat) : Bool :=
  match b.doneAt ctx with
  | some (.onDeliverBlk _ _) => true
  | _ => false

/-- A delivery stops when the frame is lost. -/
def carries (b : HotStuffBase H Sig) : Frame H Sig → Bool
  | .call (.part ctx _) _ => b.delivers ctx
  | f => f.delivering.isSome

/-- A delivery waits for the promise, or is about to. -/
def awaited (b : HotStuffBase H Sig) (pm : Nat) : Bool :=
  (match b.promises[pm]? with
    | some ⟨_, .pending ks⟩ => ks.any fun
      | .part ctx _ => b.delivers ctx
      | .fetched _ => false
    | _ => false) ||
  b.frames.any fun f => decide (pm ∈ f.collected)

variable [DecidableEq H]

/-- The promise that the frame rejects: all that the delivery has waited for is there, and
`on_propose` has delivered the block in the meantime. -/
def rejects (b : HotStuffBase H Sig) : Frame H Sig → Option Nat
  | .call (.part ctx idx) v =>
    match b.alls[ctx]? with
    | some ⟨.onDeliverBlk blk _, values⟩ =>
      if b.core.delivered blk && (values.set idx (some v)).all Option.isSome then
        b.blkDeliveryWaiting blk
      else none
    | _ => none
  | _ => none

/-- The certificate of a fetched block is right or goes to the workers, and no promise is rejected
that another delivery waits for. -/
def turnTold (b : HotStuffBase H Sig) : Frame H Sig → Bool
  | .call (.fetched blk) _ => (b.core.storage blk).all fun stored =>
    decide (blk = b.core.b0 ∨ stored.qc.objHash = b.core.b0) ||
      match stored.qc.asyncVerify b.core.config with
      | .ok none => true
      | _ => false
  | f => (b.rejects f).all fun pm => !b.awaited pm

/-- No certificate of a block fails its verification, no exception leaves a handler that has still
to go on with a delivery, and no promise is rejected that another delivery waits for. -/
def deliveryTold (P : Primitives H Sig) (b : HotStuffBase H Sig) (e : Input H Sig) : Bool :=
  (match e with
    | .verified pm =>
      match b.promises[pm]? with
      | some ⟨.certified qc, _⟩ => qc.poolVerify P
      | _ => true
    | .proceed _ => b.frames.head?.all b.turnTold
    | _ => true) &&
  (b.step P e).all fun b' => !b.throws b' || b.frames.all fun f => !b.carries f

/-- A delivery has something to wait for: the fetch of its block, or the fetch of the block that its
certificate is for, the verification of this certificate, or the delivery of a parent. -/
def Outstanding (b : HotStuffBase H Sig) (h : H) : Prop :=
  (∃ pm, b.blkFetchWaiting h = some pm ∧ b.promises.Holds pm (.fetched h)) ∨
    ∃ blk ctx idx pm, b.core.storage h = some blk ∧
      b.doneAt ctx = some (.onDeliverBlk h blk.toBlockData) ∧
      b.promises.Holds pm (.part ctx idx) ∧
      (b.blkFetchWaiting blk.qc.objHash = some pm ∨ b.promises.goal pm = some (.certified blk.qc) ∨
        ∃ p ∈ blk.parentHashes, b.blkDeliveryWaiting p = some pm)

/-- Every entry of `blk_delivery_waiting` has something to wait for, and is gone when the
certificate has failed its verification. -/
structure DeliveryWaits (b : HotStuffBase H Sig) : Prop where
  outstanding : ∀ h pm, b.blkDeliveryWaiting h = some pm → b.Outstanding h
  verified : ∀ a ∈ b.alls, ∀ h data, a.done = .onDeliverBlk h data →
    a.values[0]? = some (some false) → b.blkDeliveryWaiting h = none

/-- A certificate is found to be right. -/
def Fair (a : Awaited H Sig) (v : Bool) : Prop := ∀ qc, a = .certified qc → v = true

/-- The `all` of a delivery still waits for one of its values. -/
def Lacks (b : HotStuffBase H Sig) (ctx : Nat) (h : H) (idx : Nat) : Prop :=
  ∃ a data, b.alls[ctx]? = some a ∧ a.done = .onDeliverBlk h data ∧ a.values[idx]? = some none

/-- The callback is attached to a pending promise, or is about to be called. -/
def Owed (b : HotStuffBase H Sig) (fs : List (Frame H Sig)) (k : Callback H) : Prop :=
  (∃ pm, b.promises.Holds pm k) ∨ ∃ v, Frame.call k v ∈ fs

/-- The delivery of the block goes on. -/
def Staged (b : HotStuffBase H Sig) (fs : List (Frame H Sig)) (h : H) : Prop :=
  (∃ pm, b.promises.Holds pm (.fetched h)) ∨ (∃ f ∈ fs, f.delivering = some h) ∨
    ∃ ctx idx, b.Lacks ctx h idx

/-- With the frames `fs` still to run, every delivery goes on. -/
structure Deliveries (P : Primitives H Sig) (b : HotStuffBase H Sig) (fs : List (Frame H Sig)) :
    Prop where
  entries : ∀ h pm, b.blkDeliveryWaiting h = some pm → b.Staged fs h
  parts : ∀ ctx h idx, b.Lacks ctx h idx → b.Owed fs (.part ctx idx)
  verdicts : ∀ a ∈ b.alls, ∀ h data, a.done = .onDeliverBlk h data →
    a.values[0]? = some none ∨ a.values[0]? = some (some true)
  fair : b.promises.Sound Fair (b.Waits P) fun _ => True
  ready : ∀ k v, Frame.call k v ∈ fs → Ready Fair (b.Waits P) (k, v)
  -- no promise that somebody will attach a callback to has been rejected
  fetchKept : ∀ h pm, b.blkFetchWaiting h = some pm → b.promises.isRejected pm = false
  deliveryKept : ∀ h pm, b.blkDeliveryWaiting h = some pm → b.promises.isRejected pm = false
  collected : ∀ f ∈ fs, ∀ pm ∈ f.collected, b.promises.isRejected pm = false
  -- the entries of the blocks that are waited for are there
  fetchKnown : ∀ h pm, b.promises.goal pm = some (.fetched h) → b.promises.isPending pm = true →
    b.blkFetchWaiting h = some pm
  deliveryKnown : ∀ h pm, b.promises.goal pm = some (.delivered h) → b.promises.isPending pm = true →
    b.blkDeliveryWaiting h = some pm
  eraseFetch : ∀ h, Frame.eraseFetch h ∈ fs → (b.replica.core.storage h).isSome ∧
    ∀ pm, b.blkFetchWaiting h = some pm → b.promises.isPending pm = false
  eraseDelivery : ∀ h, Frame.eraseDelivery h ∈ fs → b.replica.core.delivered h = true ∧
    ∀ pm, b.blkDeliveryWaiting h = some pm → b.promises.isPending pm = false

variable {b b' : HotStuffBase H Sig} {fs fs' : List (Frame H Sig)} {blk : H}
  {ctx idx : Nat} {v : Bool}

omit [DecidableEq H] in
theorem Owed.mono {k : Callback H} (h : b.Owed fs k) (hsub : fs ⊆ fs') : b.Owed fs' k := by
  obtain hheld | ⟨v, hv⟩ := h
  · exact Or.inl hheld
  · exact Or.inr ⟨v, hsub hv⟩

omit [DecidableEq H] in
theorem Staged.mono {x : H} (h : b.Staged fs x) (hsub : fs ⊆ fs') : b.Staged fs' x := by
  obtain hheld | ⟨f, hf, hx⟩ | hlacks := h
  · exact Or.inl hheld
  · exact Or.inr (Or.inl ⟨f, hsub hf, hx⟩)
  · exact Or.inr (Or.inr hlacks)

namespace Deliveries

omit [DecidableEq H] in
/-- The frame may go when its delivery goes on without it and its value is not waited for. -/
theorem drop {f : Frame H Sig} (h : b.Deliveries P (f :: fs))
    (hstaged : ∀ x pm, f.delivering = some x → b.blkDeliveryWaiting x = some pm → b.Staged fs x)
    (howed : ∀ ctx idx v x, f = .call (.part ctx idx) v → b.Lacks ctx x idx →
      b.Owed fs (.part ctx idx)) : b.Deliveries P fs := by
  have hsub := List.subset_cons_self f fs
  refine ⟨fun x pm hpm => ?_, fun ctx x idx hlacks => ?_, h.verdicts, h.fair,
    fun k v hv => h.ready k v (hsub hv), h.fetchKept, h.deliveryKept,
    fun g hg => h.collected g (hsub hg), h.fetchKnown, h.deliveryKnown,
    fun x hx => h.eraseFetch x (hsub hx), fun x hx => h.eraseDelivery x (hsub hx)⟩
  · obtain hheld | ⟨g, hg, hx⟩ | hlacks := h.entries x pm hpm
    · exact Or.inl hheld
    · obtain rfl | hg := List.mem_cons.mp hg
      · exact hstaged x pm hx hpm
      · exact Or.inr (Or.inl ⟨g, hg, hx⟩)
    · exact Or.inr (Or.inr hlacks)
  · obtain hheld | ⟨v, hv⟩ := h.parts ctx x idx hlacks
    · exact Or.inl hheld
    · obtain rfl | hv := List.mem_cons.mp hv
      · exact howed ctx idx v x rfl hlacks
      · exact Or.inr ⟨v, hv⟩

omit [DecidableEq H] in
/-- A frame that no delivery needs. -/
theorem skip {f : Frame H Sig} (h : b.Deliveries P (f :: fs)) (hf : f.delivering = none)
    (hpart : ∀ ctx idx v, f = .call (.part ctx idx) v → b.delivers ctx = false) :
    b.Deliveries P fs := by
  refine h.drop (fun x pm hx => ?_) fun ctx idx v x heq hlacks => ?_
  · rw [hf] at hx
    cases hx
  · have hnot := hpart ctx idx v heq
    obtain ⟨a, data, ha, hdone, _⟩ := hlacks
    rw [delivers, doneAt, ha, Option.map_some, hdone] at hnot
    cases hnot

omit [DecidableEq H] in
/-- More frames. -/
theorem push (h : b.Deliveries P fs) (gs : List (Frame H Sig))
    (hcalls : ∀ k v, Frame.call k v ∈ gs → Ready Fair (b.Waits P) (k, v))
    (hcollected : ∀ f ∈ gs, ∀ pm ∈ f.collected, b.promises.isRejected pm = false)
    (hfetch : ∀ x, Frame.eraseFetch x ∈ gs → (b.replica.core.storage x).isSome ∧
      ∀ pm, b.blkFetchWaiting x = some pm → b.promises.isPending pm = false)
    (hdelivery : ∀ x, Frame.eraseDelivery x ∈ gs → b.replica.core.delivered x = true ∧
      ∀ pm, b.blkDeliveryWaiting x = some pm → b.promises.isPending pm = false) :
    b.Deliveries P (gs ++ fs) := by
  have hsub := List.subset_append_right gs fs
  refine ⟨fun x pm hpm => (h.entries x pm hpm).mono hsub,
    fun ctx x idx hlacks => (h.parts ctx x idx hlacks).mono hsub, h.verdicts, h.fair,
    fun k v hv => ?_, h.fetchKept, h.deliveryKept, fun f hf => ?_, h.fetchKnown, h.deliveryKnown,
    fun x hx => ?_, fun x hx => ?_⟩
  · obtain hv | hv := List.mem_append.mp hv
    · exact hcalls k v hv
    · exact h.ready k v hv
  · obtain hf | hf := List.mem_append.mp hf
    · exact hcollected f hf
    · exact h.collected f hf
  · obtain hx | hx := List.mem_append.mp hx
    · exact hfetch x hx
    · exact h.eraseFetch x hx
  · obtain hx | hx := List.mem_append.mp hx
    · exact hdelivery x hx
    · exact h.eraseDelivery x hx

omit [DecidableEq H] in
/-- An exception: no delivery needed one of the frames. -/
theorem unwind (h : b.Deliveries P fs) (hfs : ∀ f ∈ fs, b.carries f = false) :
    b.Deliveries P [] := by
  induction fs with
  | nil => exact h
  | cons f fs ih =>
    have hf := hfs f (List.mem_cons_self ..)
    refine ih (h.skip ?_ fun ctx idx v heq => ?_) fun g hg => hfs g (List.mem_cons_of_mem f hg)
    · unfold carries at hf
      split at hf
      · rfl
      · exact Option.not_isSome_iff_eq_none.mp (by rw [hf]; exact Bool.false_ne_true)
    · rw [heq] at hf
      exact hf

omit [DecidableEq H] in
/-- The replica goes on, and blocks enter the storage. -/
theorem replica (h : b.Deliveries P fs) (nd : Replica H Sig)
    (hstored : ∀ x, (b.replica.core.storage x).isSome → (nd.core.storage x).isSome)
    (hdelivered : ∀ x, b.replica.core.delivered x = true → nd.core.delivered x = true) :
    ({ b with replica := nd } : HotStuffBase H Sig).Deliveries P fs :=
  ⟨h.entries, h.parts, h.verdicts, h.fair, h.ready, h.fetchKept, h.deliveryKept, h.collected,
    h.fetchKnown, h.deliveryKnown, fun x hx => ⟨hstored x (h.eraseFetch x hx).1, (h.eraseFetch x hx).2⟩,
    fun x hx => ⟨hdelivered x (h.eraseDelivery x hx).1, (h.eraseDelivery x hx).2⟩⟩

omit [DecidableEq H] in
/-- The promises change, and the callbacks that are called come on top of the frames. -/
theorem promises (h : b.Deliveries P fs) {ps : Promises (Awaited H Sig) (Callback H) Bool}
    {ks : List (Callback H × Bool)}
    (hheld : ∀ pm k, b.promises.Holds pm k → ps.Holds pm k ∨ ∃ v, (k, v) ∈ ks)
    (hgoal : ∀ pm a, b.promises.goal pm = some a → ps.goal pm = some a)
    (hrejected : ∀ pm, ps.isRejected pm = true → b.promises.isRejected pm = true)
    (hpending : ∀ pm, ps.isPending pm = true → b.promises.isPending pm = true ∨
      (∀ x, ps.goal pm = some (.fetched x) → b.blkFetchWaiting x = some pm) ∧
        ∀ x, ps.goal pm = some (.delivered x) → b.blkDeliveryWaiting x = some pm)
    (hset : ∀ x pm, Frame.eraseFetch x ∈ fs ∧ b.blkFetchWaiting x = some pm ∨
      Frame.eraseDelivery x ∈ fs ∧ b.blkDeliveryWaiting x = some pm →
        ps.isPending pm = true → b.promises.isPending pm = true)
    (hfair : ps.Sound Fair (b.Waits P) fun _ => True)
    (hcalls : ∀ call ∈ ks, Ready Fair (b.Waits P) call) :
    ({ b with promises := ps } : HotStuffBase H Sig).Deliveries P (calls ks ++ fs) := by
  have hcall {k : Callback H} {v : Bool} (hk : (k, v) ∈ ks) :
      (Frame.call k v : Frame H Sig) ∈ calls ks ++ fs :=
    List.mem_append_left _ (List.mem_map.mpr ⟨(k, v), hk, rfl⟩)
  have hcalled {f : Frame H Sig} (hf : f ∈ calls ks ++ fs) :
      f ∈ fs ∨ ∃ call ∈ ks, f = .call call.1 call.2 := by
    obtain hf | hf := List.mem_append.mp hf
    · obtain ⟨call, hmem, rfl⟩ := List.mem_map.mp hf
      exact Or.inr ⟨call, hmem, rfl⟩
    · exact Or.inl hf
  have hkept {pm : Nat} (hpm : b.promises.isRejected pm = false) : ps.isRejected pm = false := by
    rw [← Bool.not_eq_true]
    intro hrej
    rw [hrejected pm hrej] at hpm
    cases hpm
  have hold {pm : Nat} {a : Awaited H Sig} (hgoal' : ps.goal pm = some a)
      (hpend : b.promises.isPending pm = true) : b.promises.goal pm = some a := by
    obtain ⟨g, ks, hp⟩ := isPending_iff.mp hpend
    have hg := goal_of_getElem? hp
    have heq := hgoal pm g hg
    rw [hgoal'] at heq
    rw [hg, heq]
  refine ⟨fun x pm hpm => ?_, fun ctx x idx hlacks => ?_, h.verdicts, hfair, fun k v hv => ?_,
    fun x pm hpm => hkept (h.fetchKept x pm hpm), fun x pm hpm => hkept (h.deliveryKept x pm hpm),
    fun f hf pm hpm => ?_, fun x pm hg hpend => ?_, fun x pm hg hpend => ?_, fun x hx => ?_,
    fun x hx => ?_⟩
  · obtain ⟨q, hq⟩ | ⟨f, hf, hx⟩ | hlacks := h.entries x pm hpm
    · obtain hq | ⟨v, hv⟩ := hheld q _ hq
      · exact Or.inl ⟨q, hq⟩
      · exact Or.inr (Or.inl ⟨_, hcall hv, rfl⟩)
    · exact Or.inr (Or.inl ⟨f, List.mem_append_right _ hf, hx⟩)
    · exact Or.inr (Or.inr hlacks)
  · obtain ⟨q, hq⟩ | ⟨v, hv⟩ := h.parts ctx x idx hlacks
    · obtain hq | ⟨v, hv⟩ := hheld q _ hq
      · exact Or.inl ⟨q, hq⟩
      · exact Or.inr ⟨v, hcall hv⟩
    · exact Or.inr ⟨v, List.mem_append_right _ hv⟩
  · obtain hv | ⟨call, hmem, heq⟩ := hcalled hv
    · exact h.ready k v hv
    · obtain ⟨rfl, rfl⟩ := Frame.call.inj heq
      exact hcalls call hmem
  · obtain hf | ⟨call, _, rfl⟩ := hcalled hf
    · exact hkept (h.collected f hf pm hpm)
    · cases hpm
  · obtain hpend | hother := hpending pm hpend
    · exact h.fetchKnown x pm (hold hg hpend) hpend
    · exact hother.1 x hg
  · obtain hpend | hother := hpending pm hpend
    · exact h.deliveryKnown x pm (hold hg hpend) hpend
    · exact hother.2 x hg
  · obtain hx | ⟨call, _, heq⟩ := hcalled hx
    · refine ⟨(h.eraseFetch x hx).1, fun pm hpm => ?_⟩
      rw [← Bool.not_eq_true]
      intro hpend
      have hfalse := (h.eraseFetch x hx).2 pm hpm
      rw [hset x pm (Or.inl ⟨hx, hpm⟩) hpend] at hfalse
      cases hfalse
    · cases heq
  · obtain hx | ⟨call, _, heq⟩ := hcalled hx
    · refine ⟨(h.eraseDelivery x hx).1, fun pm hpm => ?_⟩
      rw [← Bool.not_eq_true]
      intro hpend
      have hfalse := (h.eraseDelivery x hx).2 pm hpm
      rw [hset x pm (Or.inr ⟨hx, hpm⟩) hpend] at hfalse
      cases hfalse
    · cases heq

omit [DecidableEq H] in
/-- No promise is made. -/
theorem settled (h : b.Deliveries P fs) {ps : Promises (Awaited H Sig) (Callback H) Bool}
    {ks : List (Callback H × Bool)}
    (hheld : ∀ pm k, b.promises.Holds pm k → ps.Holds pm k ∨ ∃ v, (k, v) ∈ ks)
    (hgoal : ∀ pm, ps.goal pm = b.promises.goal pm)
    (hrejected : ∀ pm, ps.isRejected pm = b.promises.isRejected pm)
    (hpending : ∀ pm, ps.isPending pm = true → b.promises.isPending pm = true)
    (hfair : ps.Sound Fair (b.Waits P) fun _ => True)
    (hcalls : ∀ call ∈ ks, Ready Fair (b.Waits P) call) :
    ({ b with promises := ps } : HotStuffBase H Sig).Deliveries P (calls ks ++ fs) := by
  refine h.promises hheld (fun pm a hg => ?_) (fun pm hrej => ?_) (fun pm hpend => ?_)
    (fun _ pm _ hpend => hpending pm hpend) hfair hcalls
  · rw [hgoal, hg]
  · rw [← hrejected, hrej]
  · exact Or.inl (hpending pm hpend)

omit [DecidableEq H] in
/-- A callback is attached. -/
theorem subscribe (h : b.Deliveries P fs) {pm : Nat} {a : Awaited H Sig} {k : Callback H}
    (hgoal : b.promises.goal pm = some a) (hk : b.Waits P k a) :
    ({ b with promises := (b.promises.subscribe pm k).1 } : HotStuffBase H Sig).Deliveries P
      (calls (b.promises.subscribe pm k).2 ++ fs) := by
  obtain ⟨hfair, hcalls⟩ := h.fair.subscribe hgoal hk
  refine h.settled (fun q k' hq => Or.inl (hq.subscribe pm k)) goal_subscribe
    (fun _ => isRejected_subscribe) (fun q hq => ?_) hfair hcalls
  rwa [isPending_subscribe] at hq

omit [DecidableEq H] in
/-- A promise is resolved, and the callbacks are to be called. -/
theorem resolve (h : b.Deliveries P fs) (pm : Nat) (v : Bool)
    (hfair : ∀ a, b.promises.goal pm = some a → Fair a v) :
    ({ b with promises := (b.promises.resolve pm v).1 } : HotStuffBase H Sig).Deliveries P
      (calls (b.promises.resolve pm v).2 ++ fs) := by
  obtain ⟨hsound, hcalls⟩ := h.fair.resolve hfair
  refine h.settled (fun q k hq => ?_) goal_resolve (fun _ => isRejected_resolve) (fun q hq => ?_)
    hsound hcalls
  · exact (hq.resolve pm v).imp_right fun hk => ⟨v, hk⟩
  · rw [isPending_resolve, Bool.and_eq_true] at hq
    exact hq.1

omit [DecidableEq H] in
/-- A new promise; a pending one is in its entry already. -/
theorem append (h : b.Deliveries P fs) {p : Promise (Awaited H Sig) (Callback H) Bool}
    (hstate : p.state = .pending [] ∧
        (∀ x, p.goal = .fetched x → b.blkFetchWaiting x = some b.promises.length) ∧
        (∀ x, p.goal = .delivered x → b.blkDeliveryWaiting x = some b.promises.length) ∨
      ∃ v, p.state = .fulfilled v ∧ Fair p.goal v)
    (hbound : ∀ x pm, Frame.eraseFetch x ∈ fs ∧ b.blkFetchWaiting x = some pm ∨
      Frame.eraseDelivery x ∈ fs ∧ b.blkDeliveryWaiting x = some pm → pm < b.promises.length) :
    ({ b with promises := b.promises ++ [p] } : HotStuffBase H Sig).Deliveries P fs := by
  have hfair : Promises.Sound Fair (b.Waits P) (fun _ => True) (b.promises ++ [p]) := by
    apply h.fair.append
    exact hstate.imp (fun hs => ⟨hs.1, trivial⟩) id
  have hlast {q : Nat} (hq : ¬ q < b.promises.length) (hlt : q < List.length (b.promises ++ [p])) :
      q = b.promises.length := by
    rw [List.length_append, List.length_singleton] at hlt
    omega
  have hno : ∀ call ∈ ([] : List (Callback H × Bool)), Ready Fair (b.Waits P) call :=
    fun _ hc => nomatch hc
  refine h.promises (fun q k hq => Or.inl (hq.append _)) (fun q g hg => goal_append hg _)
    (fun q hq => ?_) (fun q hq => ?_) (fun x q hx hq => ?_) hfair hno
  · by_cases hlt : q < b.promises.length
    · rwa [isRejected_append hlt] at hq
    · rw [hlast hlt (lt_of_state (Or.inr (Or.inr hq))), isRejected, state_new] at hq
      obtain ⟨hs, _⟩ | ⟨v, hs, _⟩ := hstate
      · rw [hs] at hq
        cases hq
      · rw [hs] at hq
        cases hq
  · by_cases hlt : q < b.promises.length
    · rw [isPending_append hlt] at hq
      exact Or.inl hq
    · obtain rfl := hlast hlt (lt_of_state (Or.inl hq))
      obtain ⟨_, hfetched, hdelivered⟩ | ⟨v, hs, _⟩ := hstate
      · rw [goal_new]
        exact Or.inr ⟨fun x heq => hfetched x (Option.some.inj heq),
          fun x heq => hdelivered x (Option.some.inj heq)⟩
      · rw [isPending, state_new, hs] at hq
        cases hq
  · rwa [isPending_append (hbound x q hx)] at hq

omit [DecidableEq H] in
/-- A new promise that no entry is made for. -/
theorem newPromise (h : b.Deliveries P fs) (hp : b.Pending P) {goal : Awaited H Sig}
    {state : PromiseState (Callback H) Bool}
    (hstate : state = .pending [] ∧ (∀ x, goal ≠ .fetched x ∧ goal ≠ .delivered x) ∨
      ∃ v, state = .fulfilled v ∧ Fair goal v) :
    (b.newPromise goal state).1.Deliveries P fs := by
  refine h.append ?_ fun x pm hx => ?_
  · exact hstate.imp (fun hs => ⟨hs.1, fun x heq => absurd heq (hs.2 x).1,
      fun x heq => absurd heq (hs.2 x).2⟩) id
  · obtain ⟨_, hpm⟩ | ⟨_, hpm⟩ := hx
    · exact lt_of_goal (hp.fetchWaiting x pm hpm)
    · exact lt_of_goal (hp.deliveryWaiting x pm hpm)

omit [DecidableEq H] in
/-- The frames count as a set. -/
theorem congr (h : b.Deliveries P fs) (hsub : fs ⊆ fs') (hsup : fs' ⊆ fs) : b.Deliveries P fs' :=
  ⟨fun x pm hpm => (h.entries x pm hpm).mono hsub,
    fun ctx x idx hlacks => (h.parts ctx x idx hlacks).mono hsub, h.verdicts, h.fair,
    fun k v hv => h.ready k v (hsup hv), h.fetchKept, h.deliveryKept,
    fun f hf => h.collected f (hsup hf), h.fetchKnown, h.deliveryKnown,
    fun x hx => h.eraseFetch x (hsup hx), fun x hx => h.eraseDelivery x (hsup hx)⟩

omit [DecidableEq H] in
theorem swap (gs gs' : List (Frame H Sig)) (h : b.Deliveries P (gs ++ (gs' ++ fs))) :
    b.Deliveries P (gs' ++ (gs ++ fs)) := by
  have hsub (l l' : List (Frame H Sig)) : l ++ (l' ++ fs) ⊆ l' ++ (l ++ fs) := by
    intro f hf
    simp only [List.mem_append] at hf ⊢
    obtain hf | hf | hf := hf
    · exact Or.inr (Or.inl hf)
    · exact Or.inl hf
    · exact Or.inr (Or.inr hf)
  exact h.congr (hsub gs gs') (hsub gs' gs)

omit [DecidableEq H] in
/-- The frames of the state play no part. -/
theorem withFrames (h : b.Deliveries P fs) (gs : List (Frame H Sig)) :
    ({ b with frames := gs } : HotStuffBase H Sig).Deliveries P fs :=
  ⟨h.entries, h.parts, h.verdicts, h.fair, h.ready, h.fetchKept, h.deliveryKept, h.collected,
    h.fetchKnown, h.deliveryKnown, h.eraseFetch, h.eraseDelivery⟩

end Deliveries

end HotStuffBase
end LibHotStuff
