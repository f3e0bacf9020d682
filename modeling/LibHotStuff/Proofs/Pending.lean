import LibHotStuff.Model.Delivery
import LibHotStuff.Proofs.Delivered

/-! What the promises, the `all`s and the frames of a replica are for, and what keeps them in order. -/

namespace LibHotStuff

open Promises

variable {H Sig : Type} {P : Primitives H Sig}

/-- The value of a promise says what it has been made for. -/
def Awaited.Met (P : Primitives H Sig) (c : Core H Sig) : Awaited H Sig → Bool → Prop
  | .fetched blk, _ => (c.storage blk).isSome
  | .delivered blk, _ => c.delivered blk = true
  | .certified qc, v => v = true → c.Certifies P qc
  | .signed vote, v => v = true →
    P.verifySig vote.voter vote.cert.objHash vote.cert.sig = true ∧ vote.cert.objHash = vote.blkHash

/-- A certificate that the workers check has enough signatures, of registered replicas. -/
def Awaited.Unmet (c : Core H Sig) : Awaited H Sig → Prop
  | .certified qc => qc.asyncVerify c.config = .ok none
  | _ => True

/-- What the promises given to an `all` are for. -/
def Then.goals : Then H Sig → List (Awaited H Sig)
  | .onDeliverBlk _ data =>
    .certified data.qc :: .fetched data.qc.objHash :: data.parentHashes.map .delivered
  | .onReceiveProposal prop => [.delivered prop.blk]
  | .onReceiveVote vote => [.delivered vote.blkHash, .signed vote]
  | .sendBlocks _ hashes => hashes.map .fetched

/-- What is checked before an `all` is made. -/
def Then.Valid (P : Primitives H Sig) (c : Core H Sig) : Then H Sig → Prop
  | .onDeliverBlk blk data => (c.storage blk).isSome ∧ P.hashBlock data = blk ∧ blk ≠ P.genesisHash
  | .onReceiveProposal prop => prop.proposer ≠ c.id ∧ prop.proposer < c.config.nreplicas ∧
      prop.slice.decodable = true
  | .onReceiveVote vote => vote.voter < c.config.nreplicas
  | .sendBlocks _ _ => True

/-- The two ways to verify a certificate agree when the workers have been given something. -/
theorem QuorumCert.verify_of_pool {config : ReplicaConfig} {qc : QuorumCert H Sig}
    (hasync : qc.asyncVerify config = .ok none) (hpool : qc.poolVerify P = true) :
    qc.verify P config = some true := by
  unfold asyncVerify at hasync
  split at hasync
  · cases hasync
  rename_i hmany
  split at hasync
  · rename_i hregistered
    unfold QuorumCert.verify
    rw [if_neg hmany]
    apply checkSigs_eq_true
    intro rid sig hmem
    exact ⟨of_decide_eq_true (List.all_eq_true.mp hregistered _ hmem),
      List.all_eq_true.mp hpool _ hmem⟩
  · cases hasync

theorem Core.addBlk_stored [DecidableEq H] (c : Core H Sig) (data : BlockData H Sig) :
    ((c.addBlk P data.fetched).storage (P.hashBlock data)).isSome := by
  unfold Core.addBlk
  split
  · rename_i b hb
    have hb : c.storage (P.hashBlock data) = some b := hb
    rw [hb]
    rfl
  · change (Function.update c.storage (P.hashBlock data) (some data.fetched) _).isSome = true
    rw [Function.update_self]
    rfl

namespace HotStuffBase

/-- What follows the `all` of a number. -/
def doneAt (b : HotStuffBase H Sig) (ctx : Nat) : Option (Then H Sig) := (b.alls[ctx]?).map All.done

/-- An `all` that gets values does the same when it has them all. -/
theorem doneAt_set {b : HotStuffBase H Sig} {ctx : Nat} {a : All H Sig} (ha : b.alls[ctx]? = some a)
    (values : List (Option Bool)) (i : Nat) :
    ({ b with alls := b.alls.set ctx { a with values := values } } : HotStuffBase H Sig).doneAt i =
      b.doneAt i := by
  by_cases hi : ctx = i
  · subst hi
    change ((b.alls.set ctx _)[ctx]?).map All.done = (b.alls[ctx]?).map All.done
    rw [List.getElem?_set_self (List.getElem?_eq_some_iff.mp ha).1, ha]
    rfl
  · change ((b.alls.set ctx _)[i]?).map All.done = (b.alls[i]?).map All.done
    rw [List.getElem?_set_ne hi]

/-- What a callback waits for. -/
def Waits (P : Primitives H Sig) (b : HotStuffBase H Sig) : Callback H → Awaited H Sig → Prop
  | .fetched blk, a => a = .fetched blk ∧ blk ≠ P.genesisHash
  | .part ctx idx, a => ∃ d, b.doneAt ctx = some d ∧ d.goals[idx]? = some a

/-- A callback is called with a value that it may be called with. -/
def CallOk (P : Primitives H Sig) (b : HotStuffBase H Sig) (call : Callback H × Bool) : Prop :=
  Ready (Awaited.Met P b.replica.core) (b.Waits P) call

/-- What the handler has still to do can be done. -/
def FrameOk (P : Primitives H Sig) (b : HotStuffBase H Sig) : Frame H Sig → Prop
  | .call k v => b.CallOk P (k, v)
  | .deliverParents blk data parents pms =>
    (Then.onDeliverBlk blk data : Then H Sig).Valid P b.replica.core ∧ ∃ gs : List (Awaited H Sig),
      pms.map b.promises.goal = gs.map some ∧
        gs ++ parents.map .delivered = (Then.onDeliverBlk blk data).goals
  | .awaitProposal prop pm =>
    (Then.onReceiveProposal prop : Then H Sig).Valid P b.replica.core ∧
      b.promises.goal pm = some (.delivered prop.blk)
  | .awaitVote vote pm => b.promises.goal pm = some (.delivered vote.blkHash)
  | .onFetchBlk blk => (b.replica.core.storage blk).isSome
  | .eraseFetch _ => True
  | .eraseDelivery _ => True

/-- The promises hold what they are for, and what waits for them waits for the right thing. -/
structure Pending (P : Primitives H Sig) (b : HotStuffBase H Sig) : Prop where
  wellFormed : b.replica.core.WellFormed P
  sound : b.promises.Sound (Awaited.Met P b.replica.core) (b.Waits P) (Awaited.Unmet b.replica.core)
  valid : ∀ a ∈ b.alls, a.done.Valid P b.replica.core ∧ a.values.length = a.done.goals.length
  values : ∀ a ∈ b.alls, ∀ (i : Nat) v g, a.values[i]? = some (some v) → a.done.goals[i]? = some g →
    g.Met P b.replica.core v
  frames : ∀ f ∈ b.frames, b.FrameOk P f
  fetchWaiting : ∀ h pm, b.blkFetchWaiting h = some pm → b.promises.goal pm = some (.fetched h)
  deliveryWaiting : ∀ h pm, b.blkDeliveryWaiting h = some pm →
    b.promises.goal pm = some (.delivered h)

/-- What later states keep. -/
structure Later (P : Primitives H Sig) (b b' : HotStuffBase H Sig) : Prop where
  core : b.replica.core.Advances P (fun _ => True) b'.replica.core
  goals : ∀ pm g, b.promises.goal pm = some g → b'.promises.goal pm = some g
  dones : ∀ ctx d, b.doneAt ctx = some d → b'.doneAt ctx = some d

end HotStuffBase

section Mono

variable {c c' : Core H Sig} {own : H → Prop}

theorem Awaited.Met.mono (h : c.Advances P own c') {a : Awaited H Sig} {v : Bool} (hm : a.Met P c v) :
    a.Met P c' v := by
  cases a with
  | fetched blk => exact h.stored blk hm
  | delivered blk => exact h.delivered blk hm
  | certified qc => exact fun hv => h.certifies.mpr (hm hv)
  | signed vote => exact hm

theorem Awaited.Unmet.mono (h : c.Advances P own c') {a : Awaited H Sig} (hu : a.Unmet c) :
    a.Unmet c' := by
  cases a with
  | fetched blk => trivial
  | delivered blk => trivial
  | certified qc =>
    rw [Awaited.Unmet, h.config]
    exact hu
  | signed vote => trivial

theorem Then.Valid.mono (h : c.Advances P own c') {d : Then H Sig} (hv : d.Valid P c) :
    d.Valid P c' := by
  cases d with
  | onDeliverBlk blk data => exact ⟨h.stored blk hv.1, hv.2⟩
  | onReceiveProposal prop =>
    rw [Then.Valid, h.id, h.config]
    exact hv
  | onReceiveVote vote =>
    rw [Then.Valid, h.config]
    exact hv
  | sendBlocks replica hashes => trivial

end Mono

namespace HotStuffBase

variable {b b' b'' : HotStuffBase H Sig}

namespace Later

theorem waits (h : b.Later P b') {k : Callback H} {a : Awaited H Sig} (hw : b.Waits P k a) :
    b'.Waits P k a := by
  cases k with
  | fetched blk => exact hw
  | part ctx idx =>
    obtain ⟨d, hd, hg⟩ := hw
    exact ⟨d, h.dones ctx d hd, hg⟩

theorem callOk (h : b.Later P b') {call : Callback H × Bool} (hc : b.CallOk P call) :
    b'.CallOk P call := by
  obtain ⟨a, hw, hm⟩ := hc
  exact ⟨a, h.waits hw, hm.mono h.core⟩

theorem map_goal (h : b.Later P b') {pms : List Nat} {gs : List (Awaited H Sig)}
    (hg : pms.map b.promises.goal = gs.map some) : pms.map b'.promises.goal = gs.map some := by
  rw [← hg]
  apply List.map_congr_left
  intro pm hpm
  have hmem : b.promises.goal pm ∈ gs.map some := by
    rw [← hg]
    exact List.mem_map_of_mem hpm
  obtain ⟨g, _, hgoal⟩ := List.mem_map.mp hmem
  rw [h.goals pm g hgoal.symm, hgoal]

theorem frameOk (h : b.Later P b') {f : Frame H Sig} (hf : b.FrameOk P f) : b'.FrameOk P f := by
  cases f with
  | call k v => exact h.callOk hf
  | deliverParents blk data parents pms =>
    obtain ⟨hv, gs, hg, hall⟩ := hf
    exact ⟨hv.mono h.core, gs, h.map_goal hg, hall⟩
  | awaitProposal prop pm => exact ⟨hf.1.mono h.core, h.goals pm _ hf.2⟩
  | awaitVote vote pm => exact h.goals pm _ hf
  | onFetchBlk blk => exact h.core.stored blk hf
  | eraseFetch blk => trivial
  | eraseDelivery blk => trivial

theorem refl (hc : b.replica.core.WellFormed P) : b.Later P b :=
  ⟨.refl hc, fun _ _ h => h, fun _ _ h => h⟩

theorem trans (hc : b.replica.core.WellFormed P) (h : b.Later P b') (h' : b'.Later P b'') :
    b.Later P b'' :=
  ⟨h.core.trans hc h'.core, fun pm g hg => h'.goals pm g (h.goals pm g hg),
    fun ctx d hd => h'.dones ctx d (h.dones ctx d hd)⟩

end Later

theorem Later.sound (h : b.Later P b') {ps : Promises (Awaited H Sig) (Callback H) Bool}
    (hs : ps.Sound (Awaited.Met P b.replica.core) (b.Waits P) (Awaited.Unmet b.replica.core)) :
    ps.Sound (Awaited.Met P b'.replica.core) (b'.Waits P) (Awaited.Unmet b'.replica.core) :=
  hs.mono (fun _ _ hm => hm.mono h.core) (fun _ _ hw => h.waits hw) fun _ hu => hu.mono h.core

namespace Pending

/-- The same `all`s, with other promises, frames or another core. -/
theorem later (h : b.Pending P) (hl : b.Later P b') (halls : b'.alls = b.alls)
    (hsound : b'.promises.Sound (Awaited.Met P b'.replica.core) (b'.Waits P)
      (Awaited.Unmet b'.replica.core))
    (hframes : ∀ f ∈ b'.frames, b'.FrameOk P f)
    (hfetch : ∀ h pm, b'.blkFetchWaiting h = some pm →
      b.blkFetchWaiting h = some pm ∨ b'.promises.goal pm = some (.fetched h))
    (hdeliver : ∀ h pm, b'.blkDeliveryWaiting h = some pm →
      b.blkDeliveryWaiting h = some pm ∨ b'.promises.goal pm = some (.delivered h)) :
    b'.Pending P := by
  refine ⟨hl.core.wellFormed, hsound, ?_, ?_, hframes, fun x pm hx => ?_, fun x pm hx => ?_⟩
  · rw [halls]
    intro a ha
    exact ⟨(h.valid a ha).1.mono hl.core, (h.valid a ha).2⟩
  · rw [halls]
    intro a ha i v g hv hg
    exact (h.values a ha i v g hv hg).mono hl.core
  · exact (hfetch x pm hx).elim (fun hold => hl.goals pm _ (h.fetchWaiting x pm hold)) id
  · exact (hdeliver x pm hx).elim (fun hold => hl.goals pm _ (h.deliveryWaiting x pm hold)) id

theorem push (h : b.Pending P) {fs : List (Frame H Sig)} (hfs : ∀ f ∈ fs, b.FrameOk P f) :
    (b.push fs).Pending P := by
  refine { h with frames := fun f hf => ?_ }
  obtain hf | hf := List.mem_append.mp hf
  · exact hfs f hf
  · exact h.frames f hf

theorem unwind (h : b.Pending P) (es : List Error) (halted : Bool) :
    ({ b with frames := [], thrown := es, halted := halted } : HotStuffBase H Sig).Pending P :=
  { h with frames := by simp }

theorem newPromise (h : b.Pending P) (goal : Awaited H Sig) (state : PromiseState (Callback H) Bool)
    (hstate : state = .pending [] ∧ goal.Unmet b.replica.core ∨
      ∃ v, state = .fulfilled v ∧ goal.Met P b.replica.core v) :
    (b.newPromise goal state).1.Pending P ∧ b.Later P (b.newPromise goal state).1 ∧
      (b.newPromise goal state).1.promises.goal (b.newPromise goal state).2 = some goal := by
  have hl : b.Later P (b.newPromise goal state).1 :=
    ⟨.refl h.wellFormed, fun pm g hg => goal_append hg _, fun _ _ hd => hd⟩
  refine ⟨h.later hl rfl ?_ (fun f hf => hl.frameOk (h.frames f hf)) (fun _ _ => Or.inl)
    fun _ _ => Or.inl, hl, goal_new _ _⟩
  exact hl.sound (h.sound.append hstate)

variable [DecidableEq H]

/-- The promise of an entry is for its key. -/
theorem update_goal {waiting : H → Option Nat} {ps : Promises (Awaited H Sig) (Callback H) Bool}
    {goal : H → Awaited H Sig} {blk : H} {o : Option Nat}
    (hold : ∀ x pm, waiting x = some pm → ps.goal pm = some (goal x))
    (hnew : ∀ pm, o = some pm → ps.goal pm = some (goal blk)) (x : H) (pm : Nat)
    (hx : Function.update waiting blk o x = some pm) : ps.goal pm = some (goal x) := by
  by_cases heq : x = blk
  · subst heq
    rw [Function.update_self] at hx
    exact hnew pm hx
  · rw [Function.update_of_ne heq] at hx
    exact hold x pm hx

theorem of_erase {waiting : H → Option Nat} {x blk : H} {pm : Nat}
    (h : Function.update waiting blk none x = some pm) : waiting x = some pm := by
  by_cases heq : x = blk
  · subst heq
    rw [Function.update_self] at h
    cases h
  · rwa [Function.update_of_ne heq] at h

theorem asyncFetchBlk (h : b.Pending P) (blk : H) :
    (b.asyncFetchBlk blk).1.Pending P ∧ b.Later P (b.asyncFetchBlk blk).1 ∧
      (b.asyncFetchBlk blk).1.promises.goal (b.asyncFetchBlk blk).2 = some (.fetched blk) := by
  unfold HotStuffBase.asyncFetchBlk
  split
  · rename_i hst
    exact h.newPromise (.fetched blk) (.fulfilled true) (Or.inr ⟨true, rfl, hst⟩)
  split
  · rename_i pm hpm
    exact ⟨h, .refl h.wellFormed, h.fetchWaiting blk pm hpm⟩
  · obtain ⟨hp, hl, hgoal⟩ := h.newPromise (.fetched blk) (.pending []) (Or.inl ⟨rfl, trivial⟩)
    refine ⟨{ hp with fetchWaiting := ?_ }, ⟨hl.core, hl.goals, hl.dones⟩, hgoal⟩
    apply update_goal hp.fetchWaiting
    intro pm hpm
    rw [← Option.some.inj hpm]
    exact hgoal

theorem asyncFetchBlk_replica (b : HotStuffBase H Sig) (blk : H) :
    (b.asyncFetchBlk blk).1.replica = b.replica := by
  unfold HotStuffBase.asyncFetchBlk
  split
  · rfl
  split
  · rfl
  · rfl

omit [DecidableEq H] in
/-- Callbacks that may be called may be run by the handler. -/
theorem calls_ok {ks : List (Callback H × Bool)} (hks : ∀ call ∈ ks, b.CallOk P call) :
    ∀ f ∈ (calls ks : List (Frame H Sig)), b.FrameOk P f := by
  intro f hf
  obtain ⟨k, hk, rfl⟩ := List.mem_map.mp hf
  exact hks k hk

omit [DecidableEq H] in
/-- A promise gets a callback. -/
theorem subscribe (h : b.Pending P) {pm : Nat} {a : Awaited H Sig} {k : Callback H}
    (hgoal : b.promises.goal pm = some a) (hk : b.Waits P k a) :
    ({ b with promises := (b.promises.subscribe pm k).1 } : HotStuffBase H Sig).Pending P ∧
      b.Later P { b with promises := (b.promises.subscribe pm k).1 } ∧
      ∀ call ∈ (b.promises.subscribe pm k).2, b.CallOk P call := by
  obtain ⟨hsound, hcalls⟩ := h.sound.subscribe hgoal hk
  have hl : b.Later P { b with promises := (b.promises.subscribe pm k).1 } :=
    ⟨.refl h.wellFormed, fun pm g hg => by rwa [goal_subscribe], fun _ _ hd => hd⟩
  exact ⟨h.later hl rfl hsound (fun f hf => hl.frameOk (h.frames f hf)) (fun _ _ => Or.inl)
    fun _ _ => Or.inl, hl, hcalls⟩

omit [DecidableEq H] in
/-- A promise is resolved. -/
theorem resolve (h : b.Pending P) (pm : Nat) (v : Bool)
    (hmet : ∀ a, b.promises.goal pm = some a → a.Met P b.replica.core v) :
    ({ b with promises := (b.promises.resolve pm v).1 } : HotStuffBase H Sig).Pending P ∧
      b.Later P { b with promises := (b.promises.resolve pm v).1 } ∧
      ∀ call ∈ (b.promises.resolve pm v).2, b.CallOk P call := by
  obtain ⟨hsound, hcalls⟩ := h.sound.resolve hmet
  have hl : b.Later P { b with promises := (b.promises.resolve pm v).1 } :=
    ⟨.refl h.wellFormed, fun pm g hg => by rwa [goal_resolve], fun _ _ hd => hd⟩
  exact ⟨h.later hl rfl hsound (fun f hf => hl.frameOk (h.frames f hf)) (fun _ _ => Or.inl)
    fun _ _ => Or.inl, hl, hcalls⟩

/-- A new promise and its entry. -/
theorem newDelivery (h : b.Pending P) (blk : H) :
    let b₁ : HotStuffBase H Sig := { (b.newPromise (.delivered blk) (.pending [])).1 with
      blkDeliveryWaiting := Function.update b.blkDeliveryWaiting blk (some b.promises.length) }
    b₁.Pending P ∧ b.Later P b₁ ∧ b₁.promises.goal b.promises.length = some (.delivered blk) := by
  obtain ⟨hp, hl, hgoal⟩ := h.newPromise (.delivered blk) (.pending []) (Or.inl ⟨rfl, trivial⟩)
  refine ⟨{ hp with deliveryWaiting := ?_ }, ⟨hl.core, hl.goals, hl.dones⟩, hgoal⟩
  apply update_goal hp.deliveryWaiting
  intro pm hpm
  rw [← Option.some.inj hpm]
  exact hgoal

omit [DecidableEq H] in
/-- A block that is not delivered is not genesis. -/
theorem ne_genesis (h : b.Pending P) {blk : H} (hd : ¬ b.replica.core.delivered blk = true) :
    blk ≠ P.genesisHash := by
  rintro rfl
  exact hd h.wellFormed.dag.delivered_genesis

/-- `async_deliver_blk` hands a promise for the block to the rest of its caller. -/
theorem asyncDeliverBlk (h : b.Pending P) {blk : H} {next : Nat → Frame H Sig}
    (hnext : ∀ (b' : HotStuffBase H Sig) pm, b.Later P b' →
      b'.promises.goal pm = some (.delivered blk) → b'.FrameOk P (next pm)) :
    (b.asyncDeliverBlk blk next).Pending P := by
  unfold HotStuffBase.asyncDeliverBlk
  split
  · rename_i hd
    obtain ⟨hp, hl, hgoal⟩ := h.newPromise (.delivered blk) (.fulfilled true) (Or.inr ⟨true, rfl, hd⟩)
    apply hp.push
    intro f hf
    rw [List.mem_singleton.mp hf]
    exact hnext _ _ hl hgoal
  rename_i hd
  split
  · rename_i pm hpm
    apply h.push
    intro f hf
    rw [List.mem_singleton.mp hf]
    exact hnext _ _ (.refl h.wellFormed) (h.deliveryWaiting blk pm hpm)
  · obtain ⟨hp₁, hl₁, hgoal₁⟩ := h.newDelivery blk
    have hgen := h.ne_genesis hd
    obtain ⟨hp₂, hl₂, hgoal₂⟩ := hp₁.asyncFetchBlk blk
    obtain ⟨hp₃, hl₃, hcalls⟩ := hp₂.subscribe (k := .fetched blk) hgoal₂ ⟨rfl, hgen⟩
    have hlast := hl₂.trans hp₁.wellFormed hl₃
    apply hp₃.push
    intro f hf
    obtain hf | hf := List.mem_append.mp hf
    · exact hl₃.frameOk (calls_ok hcalls f hf)
    · rw [List.mem_singleton.mp hf]
      exact hnext _ _ (hl₁.trans h.wellFormed hlast) (hlast.goals _ _ hgoal₁)

omit [DecidableEq H] in
/-- A new `all`, before its callbacks are attached. -/
theorem newAll (h : b.Pending P) {pms : List Nat} {done : Then H Sig}
    (hgoals : pms.map b.promises.goal = done.goals.map some)
    (hvalid : done.Valid P b.replica.core) :
    let b₁ : HotStuffBase H Sig :=
      { b with alls := b.alls ++ [{ done := done, values := pms.map fun _ => none }] }
    b₁.Pending P ∧ b.Later P b₁ ∧ b₁.doneAt b.alls.length = some done ∧
      ∀ x ∈ pms.zipIdx.map fun x => (x.1, (Callback.part b.alls.length x.2 : Callback H)),
        ∃ g, b.promises.goal x.1 = some g ∧ b₁.Waits P x.2 g := by
  let a : All H Sig := { done := done, values := pms.map fun _ => none }
  let b₁ : HotStuffBase H Sig := { b with alls := b.alls ++ [a] }
  have hlen : pms.length = done.goals.length := by
    simpa using congrArg List.length hgoals
  have hnew : b₁.doneAt b.alls.length = some done := by
    change ((b.alls ++ [a])[b.alls.length]?).map All.done = some done
    rw [List.getElem?_append_right (Nat.le_refl _), Nat.sub_self]
    rfl
  have hl : b.Later P b₁ := by
    refine ⟨.refl h.wellFormed, fun _ _ hg => hg, fun ctx d hd => ?_⟩
    obtain ⟨a', ha', rfl⟩ := Option.map_eq_some_iff.mp hd
    change ((b.alls ++ [a])[ctx]?).map All.done = some a'.done
    rw [List.getElem?_append_left (List.getElem?_eq_some_iff.mp ha').1, ha']
    rfl
  refine ⟨?_, hl, hnew, fun x hx => ?_⟩
  · refine ⟨h.wellFormed, hl.sound h.sound, ?_, ?_, fun f hf => hl.frameOk (h.frames f hf),
      h.fetchWaiting, h.deliveryWaiting⟩
    · intro a' ha'
      obtain ha' | ha' := List.mem_append.mp ha'
      · exact h.valid a' ha'
      · rw [List.mem_singleton.mp ha']
        exact ⟨hvalid, by rw [List.length_map, hlen]⟩
    · intro a' ha' i v g hv hg
      obtain ha' | ha' := List.mem_append.mp ha'
      · exact h.values a' ha' i v g hv hg
      · rw [List.mem_singleton.mp ha', List.getElem?_map] at hv
        obtain ⟨pm, _, hnone⟩ := Option.map_eq_some_iff.mp hv
        cases hnone
  · obtain ⟨⟨pm, i⟩, hmem, rfl⟩ := List.mem_map.mp hx
    rw [List.mem_zipIdx_iff_getElem?] at hmem
    have hlt := (List.getElem?_eq_some_iff.mp hmem).1
    have hat := congrArg (fun l => l[i]?) hgoals
    simp only [List.getElem?_map, hmem, Option.map_some] at hat
    obtain ⟨g, hg, hgoal⟩ := Option.map_eq_some_iff.mp hat.symm
    exact ⟨g, hgoal.symm, done, hnew, hg⟩

omit [DecidableEq H] in
/-- An `all` is made of promises for what its callback needs. -/
theorem await (h : b.Pending P) {pms : List Nat} {done : Then H Sig}
    (hgoals : pms.map b.promises.goal = done.goals.map some)
    (hvalid : done.Valid P b.replica.core) : (b.await pms done).Pending P := by
  obtain ⟨hp, _, _, hks⟩ := h.newAll hgoals hvalid
  let b₁ : HotStuffBase H Sig :=
    { b with alls := b.alls ++ [{ done := done, values := pms.map fun _ => none }] }
  have hp : b₁.Pending P := hp
  obtain ⟨hsound, hcalls⟩ := hp.sound.subscribeAll hks
  let b₂ : HotStuffBase H Sig := { b₁ with promises := (b₁.promises.subscribeAll
    (pms.zipIdx.map fun x => (x.1, .part b.alls.length x.2))).1 }
  have hl₂ : b₁.Later P b₂ :=
    ⟨.refl h.wellFormed, fun pm g hg => by rwa [goal_subscribeAll], fun _ _ hd => hd⟩
  have hp₂ : b₂.Pending P := hp.later hl₂ rfl hsound (fun f hf => hl₂.frameOk (hp.frames f hf))
    (fun _ _ => Or.inl) fun _ _ => Or.inl
  exact hp₂.push fun f hf => hl₂.frameOk (calls_ok hcalls f hf)

/-- The verification of a certificate: its promise is fulfilled, or the workers settle it. -/
theorem verifying (h : b.Pending P) {blk : H} (hgen : blk ≠ P.genesisHash) {data : BlockData H Sig}
    {r : Option Bool}
    (hr : (if blk = b.core.b0 ∨ data.qc.objHash = b.core.b0 then .ok (some true)
      else data.qc.asyncVerify b.core.config : Except Error (Option Bool)) = .ok r) :
    r.elim (.pending []) .fulfilled = (.pending [] : PromiseState (Callback H) Bool) ∧
      (Awaited.certified data.qc).Unmet b.replica.core ∨
      ∃ v, r.elim (.pending []) .fulfilled = (.fulfilled v : PromiseState (Callback H) Bool) ∧
        (Awaited.certified data.qc).Met P b.replica.core v := by
  have hb0 := h.wellFormed.dag.b0
  split at hr
  · rename_i hor
    obtain rfl := Except.ok.inj hr
    refine Or.inr ⟨true, rfl, fun _ => Or.inl ?_⟩
    obtain heq | heq := hor
    · exact absurd (heq.trans hb0) hgen
    · exact heq.trans hb0
  · have hasync := hr
    unfold QuorumCert.asyncVerify at hr
    split at hr
    · obtain rfl := Except.ok.inj hr
      exact Or.inr ⟨false, rfl, fun hv => nomatch hv⟩
    split at hr
    · obtain rfl := Except.ok.inj hr
      exact Or.inl ⟨rfl, hasync⟩
    · cases hr

/-- The callback of `async_fetch_blk` starts what the delivery waits for. -/
theorem onFetched (h : b.Pending P) {blk : H} (hgen : blk ≠ P.genesisHash) :
    (b.onFetched blk).Pending P := by
  unfold HotStuffBase.onFetched
  split
  · exact h.unwind b.thrown true
  rename_i stored hst
  dsimp only
  split
  · exact h.unwind (_ :: b.thrown) b.halted
  rename_i r hr
  have hstate := h.verifying hgen hr
  obtain ⟨hp, hl, hgoal⟩ := h.newPromise (.certified stored.qc) (r.elim (.pending []) .fulfilled) hstate
  obtain ⟨hp₂, hl₂, hgoal₂⟩ := hp.asyncFetchBlk stored.qc.objHash
  apply hp₂.push
  intro f hf
  rw [List.mem_singleton.mp hf]
  have hvalid : (Then.onDeliverBlk blk stored.toBlockData : Then H Sig).Valid P b.replica.core :=
    ⟨by rw [show b.replica.core.storage blk = some stored from hst]; rfl,
      h.wellFormed.dag.hashed hst hgen, hgen⟩
  refine ⟨(hvalid.mono hl.core).mono hl₂.core,
    [.certified stored.qc, .fetched stored.qc.objHash], ?_, rfl⟩
  simp only [List.map_cons, List.map_nil]
  rw [hl₂.goals _ _ hgoal, hgoal₂]

omit [DecidableEq H] in
/-- The replica takes a step. -/
theorem settle (h : b.Pending P) {own : H → Prop} {nd : Replica H Sig}
    (ha : b.replica.core.Advances P own nd.core) :
    (b.settle nd).Pending P ∧ b.Later P (b.settle nd) := by
  have hl : b.Later P (b.settle nd) :=
    ⟨ha.mono fun _ _ => trivial, fun _ _ hg => hg, fun _ _ hd => hd⟩
  refine ⟨h.later hl rfl (hl.sound h.sound) (fun f hf => ?_) (fun _ _ => Or.inl) fun _ _ => Or.inl, hl⟩
  have hmem : f ∈ b.frames := by
    unfold HotStuffBase.settle at hf
    dsimp only at hf
    split at hf
    · exact hf
    · cases hf
  exact hl.frameOk (h.frames f hmem)

end Pending

end HotStuffBase
end LibHotStuff
