import LibHotStuff.Proofs.DecidedOrder
import LibHotStuff.Proofs.Paced
import LibHotStuff.Proofs.PeerMessages

/-! Replicas that fetch blocks, verify with workers and wait for deliveries do together what replicas
do that handle each message when all that it needs is there. -/

namespace LibHotStuff

variable {PubKey H Sig : Type} [DecidableEq H] {P : Primitives H Sig} {F : Formats PubKey Sig}
  {name : UInt256 → H}

variable [DecidableEq Sig] {D : Deployment} {dummy : QuorumCert H Sig}

namespace Sys

variable {s s' : Sys H Sig} {e : Event H Sig}

/-- What the network has to vouch for when a replica takes an event. -/
def Vouched (P : Primitives H Sig) (D : Deployment) (s : Sys H Sig) : Event H Sig → Prop
  | .fetch r src data =>
    src < D.n ∧ src ≠ r ∧ s.blockSent P D src data = true ∧ s.qcUnforged P D data.qc = true
  | .receiveProposal r src _ prop => s.proposalSent D src r prop = true
  | .receiveVote _ _ vote =>
    s.unforged P D vote.voter vote.cert.objHash vote.cert.sig = true
  | .receiveSlice _ src _ slice => src < D.n ∧ s.sliceSent D src slice = true
  | _ => True

/-- What a replica does among any peers it does in the system, if the network vouches for it. -/
theorem handle_vouched {nd : Replica H Sig} (h : (s.node e.at_).handle P e = some nd)
    (hid : (s.node e.at_).core.id = e.at_) (hn : (s.node e.at_).core.config.nreplicas = D.n)
    (hv : s.Vouched P D e) : s.handle P D e = some nd := by
  cases e with
  | fetch r src data =>
    obtain ⟨hlt, _, hsent, hqc⟩ := hv
    change (s.node r).handle P (.fetch r src data) = some nd at h
    simp only [Replica.handle, Option.ite_none_right_eq_some] at h
    simp only [handle, h.1, hlt, hsent, hqc, decide_true, Bool.and_self, if_true, h.2]
  | deliver r blk => exact h
  | receiveProposal r src ord prop =>
    simp only [Event.at_] at hid hn
    simp only [Replica.handle, Option.ite_none_right_eq_some, Bool.and_eq_true, Event.at_, hid, hn] at h
    obtain ⟨⟨⟨⟨⟨⟨hidle, hprop⟩, hsrc⟩, hlt⟩, hdec⟩, hdel⟩, hnd⟩ := h
    have hsent : s.proposalSent D src r prop = true := hv
    simp only [handle, hidle, hprop, hsrc, hlt, hdec, hsent, hdel, Bool.and_self, if_true, hnd]
  | receiveVote r ord vote =>
    simp only [Event.at_] at hid hn
    simp only [Replica.handle, Option.ite_none_right_eq_some, Bool.and_eq_true, Event.at_, hn] at h
    obtain ⟨⟨⟨⟨⟨hidle, hlt⟩, hver⟩, hobj⟩, hdel⟩, hnd⟩ := h
    have hsig : s.unforged P D vote.voter vote.cert.objHash vote.cert.sig = true := hv
    simp only [handle, hidle, hlt, hver, hobj, hsig, hdel, Bool.and_self, if_true, hnd]
  | receiveSlice r src hash slice =>
    obtain ⟨hlt, hsent⟩ := hv
    simp only [Replica.handle, Option.ite_none_right_eq_some, Bool.and_eq_true, Event.at_] at h
    obtain ⟨⟨hidle, hdec⟩, hnd⟩ := h
    simp only [handle, hidle, hlt, hdec, hsent, decide_true, Bool.and_self, if_true, hnd]
  | propose r ord cmds parents extra => exact h
  | asyncQcFinish r blk => exact h
  | runTask r ord toSelf => exact h

/-- The replicas have gone on. -/
def Grows (s s' : Sys H Sig) : Prop := ∀ r, (s.node r).log <+: (s'.node r).log

omit [DecidableEq H] [DecidableEq Sig] in
theorem any_of_grown {l l' : List (Output H Sig)} (h : l <+: l') {p : Output H Sig → Bool}
    (hany : l.any p = true) : l'.any p = true := by
  obtain ⟨o, ho, hp⟩ := List.any_eq_true.mp hany
  exact List.any_eq_true.mpr ⟨o, h.subset ho, hp⟩

namespace Grows

omit [DecidableEq Sig] in
theorem signed (h : s.Grows s') {r : ReplicaID} {b : H} (hs : s.signed r b = true) :
    s'.signed r b = true :=
  any_of_grown (h r) hs

omit [DecidableEq Sig] in
theorem unforged (h : s.Grows s') {rid : ReplicaID} {b : H} {sig : Sig}
    (hu : s.unforged P D rid b sig = true) : s'.unforged P D rid b sig = true := by
  simp only [Sys.unforged, Bool.or_eq_true] at hu ⊢
  exact hu.imp_right h.signed

omit [DecidableEq Sig] in
theorem qcUnforged (h : s.Grows s') {qc : QuorumCert H Sig} (hu : s.qcUnforged P D qc = true) :
    s'.qcUnforged P D qc = true := by
  simp only [Sys.qcUnforged, List.all_eq_true] at hu ⊢
  exact fun x hx => h.unforged (hu x hx)

omit [DecidableEq Sig] in
theorem proposalSent (h : s.Grows s') {src r : ReplicaID} {prop : Proposal H}
    (hs : s.proposalSent D src r prop = true) : s'.proposalSent D src r prop = true := by
  simp only [Sys.proposalSent, Bool.or_eq_true] at hs ⊢
  exact hs.imp_right (any_of_grown (h src))

end Grows

theorem grows_step (h : s.step P D e = some s') : s.Grows s' := by
  obtain ⟨nd, hnd, rfl⟩ := step_handle h
  obtain ⟨outs, hlog⟩ := handle_log hnd
  intro r
  by_cases hr : r = e.at_
  · subst hr
    simp only [set, Function.update_self, hlog]
    exact List.prefix_append _ _
  · simp only [set, Function.update_of_ne hr]
    exact List.prefix_refl _

variable {cond : Sys H Sig × List (H × List UInt256) → Event H Sig → Prop}
  {x x' : Sys H Sig × List (H × List UInt256)}

theorem grows_building (h : Transition.Reaches (stepBuilding P D) cond x x') : x.1.Grows x'.1 := by
  induction h with
  | refl => exact fun r => List.prefix_refl _
  | tail _ hlast ih =>
    obtain ⟨e, _, hstep⟩ := hlast
    obtain ⟨s, hs, rfl⟩ := Option.map_eq_some_iff.mp hstep
    exact fun r => (ih r).trans (grows_step hs r)

theorem reachable_building
    (h : Transition.Reaches (stepBuilding P D) cond (init P D dummy, []) x) :
    x.1.Reachable P D dummy := by
  induction h with
  | refl => exact .refl
  | tail _ hlast ih =>
    obtain ⟨e, _, hstep⟩ := hlast
    obtain ⟨s, hs, rfl⟩ := Option.map_eq_some_iff.mp hstep
    exact ih.tail ⟨e, trivial, hs⟩

omit [DecidableEq H] [DecidableEq Sig] in
theorem set_same (s : Sys H Sig) (r : ReplicaID) : s.set r (s.node r) = s := by
  rw [set, Function.update_eq_self]

/-- The events that a replica takes are steps of the system. -/
theorem building_single {s : Sys H Sig} {built : List (H × List UInt256)} {nd : Replica H Sig}
    (hreach : s.Reachable P D dummy) (hr : D.Correct e.at_)
    (h : (s.node e.at_).handle P e = some nd) (hv : s.Vouched P D e) (hcond : cond (s, built) e) :
    Transition.Reaches (stepBuilding P D) cond (s, built)
      (s.set e.at_ nd, (s.builds P e).toList ++ built) := by
  obtain ⟨hid, hn, _⟩ := hreach.valid hr
  refine .single ⟨e, hcond, ?_⟩
  rw [stepBuilding, step, if_pos hr, handle_vouched h hid hn hv]
  rfl

/-- So are the blocks that it puts into its storage, one after the other. -/
theorem building_fetches {s : Sys H Sig} {built : List (H × List UInt256)} {r src : ReplicaID}
    (hfetch : ∀ x data, cond x (.fetch r src data)) (hreach : s.Reachable P D dummy)
    (hr : D.Correct r) {ds : List (BlockData H Sig)} {nd : Replica H Sig}
    (h : HotStuffBase.Takes P (ds.map (.fetch r src)) (s.node r) nd)
    (hv : ∀ data ∈ ds, s.Vouched P D (.fetch r src data)) :
    Transition.Reaches (stepBuilding P D) cond (s, built) (s.set r nd, built) := by
  induction ds generalizing s with
  | nil =>
    obtain rfl := Option.some.inj h
    rw [set_same]
    exact .refl
  | cons d ds ih =>
    obtain ⟨nd₁, hnd₁, hrest⟩ := Option.bind_eq_some_iff.mp h
    have hd := hv d List.mem_cons_self
    have hfirst : Transition.Reaches (stepBuilding P D) cond (s, built) (s.set r nd₁, built) :=
      building_single (e := .fetch r src d) hreach hr hnd₁ hd (hfetch _ d)
    have hreach₁ : (s.set r nd₁).Reachable P D dummy := by
      obtain ⟨hid, hn, _⟩ := hreach.valid hr
      refine hreach.tail ⟨.fetch r src d, trivial, ?_⟩
      rw [step, if_pos (show D.Correct (Event.fetch r src d).at_ from hr),
        handle_vouched hnd₁ hid hn hd]
      rfl
    have hlast : Transition.Reaches (stepBuilding P D) cond (s.set r nd₁, built)
        ((s.set r nd₁).set r nd, built) := by
      refine ih hreach₁ ?_ fun data hdata => ?_
      · simp only [set, Function.update_self]
        exact hrest
      · obtain ⟨hlt, hne, hsent, hqc⟩ := hv data (List.mem_cons_of_mem d hdata)
        refine ⟨hlt, hne, ?_, (grows_building hfirst).qcUnforged hqc⟩
        simpa only [blockSent, set, Function.update_of_ne hne] using hsent
    have hset : (s.set r nd₁).set r nd = s.set r nd := by
      simp only [set, Function.update_idem]
    rw [hset] at hlast
    exact hfirst.trans hlast

/-- The message that waits has been sent. -/
def Hears (P : Primitives H Sig) (D : Deployment) (s : Sys H Sig) (r : ReplicaID) : Then H Sig → Prop
  | .onReceiveProposal prop => s.proposalSent D prop.proposer r prop = true
  | .onReceiveVote vote => s.unforged P D vote.voter vote.cert.objHash vote.cert.sig = true
  | _ => True

omit [DecidableEq Sig] in
theorem Grows.hears {s s' : Sys H Sig} (h : s.Grows s') {r : ReplicaID} {d : Then H Sig}
    (hd : s.Hears P D r d) : s'.Hears P D r d := by
  cases d with
  | onReceiveProposal prop => exact h.proposalSent hd
  | onReceiveVote vote => exact h.unforged hd
  | _ => trivial

theorem hears_of_maySend {s : Sys H Sig} {r : ReplicaID} {e : Input H Sig}
    (h : s.maySend P D r e = true) : ∀ d ∈ e.message P, s.Hears P D r d := by
  intro d hd
  cases e with
  | propose src proposer sHash slice data =>
    simp only [Input.message, Option.mem_def, Option.ite_none_right_eq_some, Option.some.injEq] at hd
    obtain ⟨rfl, rfl⟩ := hd
    simp only [maySend, Bool.and_eq_true] at h
    exact h.1.1
  | vote src vote =>
    obtain rfl := Option.some.inj hd
    exact h
  | _ => cases hd

end Sys

namespace PeerNetwork

variable {s s' : PeerNetwork H Sig}

/-- The events of the replicas that a step makes. -/
def makes (F : Formats PubKey Sig) (name : UInt256 → H) (s : PeerNetwork H Sig) :
    ReplicaID × Arrival H Sig → List (Event H Sig)
  | (r, .message src op bytes) =>
    match op.parse F name src bytes with
    | .ok (e, _) => (s.node r).makes r e
    | .error _ => []
  | (r, .turn e) => (s.node r).makes r e

/-- The replicas below the handlers have made a run of their own, and wait for what they have been
sent. -/
structure Faithful (P : Primitives H Sig) (D : Deployment) (dummy : QuorumCert H Sig)
    (cond : Sys H Sig × List (H × List UInt256) → Event H Sig → Prop)
    (s : PeerNetwork H Sig) (built : List (H × List UInt256)) : Prop where
  reaches : Transition.Reaches (Sys.stepBuilding P D) cond (Sys.init P D dummy, []) (s.sys, built)
  pending : ∀ r, D.Correct r → (s.node r).Pending P
  heard : ∀ r, D.Correct r → (s.node r).Heard (s.sys.Hears P D r)

omit [DecidableEq H] [DecidableEq Sig] in
theorem sys_set (s : PeerNetwork H Sig) (r : ReplicaID) (b : HotStuffBase H Sig) :
    (s.set r b).sys = s.sys.set r b.replica := by
  simp only [sys, set, Sys.set, Sys.mk.injEq]
  funext r'
  by_cases hr : r' = r
  · subst hr
    simp only [Function.update_self]
  · simp only [Function.update_of_ne hr]

theorem init_faithful (P : Primitives H Sig) (D : Deployment) (dummy : QuorumCert H Sig)
    (cond : Sys H Sig × List (H × List UInt256) → Event H Sig → Prop) :
    (init P D dummy).Faithful P D dummy cond [] :=
  ⟨.refl, fun r _ => .init P dummy D.replicas (D.listenAddr r) r,
    fun _ _ => ⟨(fun f hf => by cases hf), fun a ha => by cases ha⟩⟩

namespace Faithful

variable {cond : Sys H Sig × List (H × List UInt256) → Event H Sig → Prop}
  {built built' : List (H × List UInt256)} {r : ReplicaID} {b' : HotStuffBase H Sig}

/-- The replica's part of a step, and the rest. -/
theorem set (h : s.Faithful P D dummy cond built) (hr : D.Correct r)
    (hsteps : Transition.Reaches (Sys.stepBuilding P D) cond (s.sys, built)
      (s.sys.set r b'.replica, built'))
    (hp : b'.Pending P) (hheard : b'.Heard (s.sys.Hears P D r)) :
    (s.set r b').Faithful P D dummy cond built' := by
  have hgrows : s.sys.Grows (s.set r b').sys := by
    rw [sys_set]
    exact Sys.grows_building hsteps
  refine ⟨?_, fun r' hr' => ?_, fun r' hr' => ?_⟩
  · rw [sys_set]
    exact h.reaches.trans hsteps
  · by_cases heq : r' = r
    · subst heq
      simpa only [PeerNetwork.set, Function.update_self] using hp
    · simpa only [PeerNetwork.set, Function.update_of_ne heq] using h.pending r' hr'
  · by_cases heq : r' = r
    · subst heq
      simp only [PeerNetwork.set, Function.update_self]
      exact hheard.mono fun _ hd => hgrows.hears hd
    · simp only [PeerNetwork.set, Function.update_of_ne heq]
      exact (h.heard r' hr').mono fun _ hd => hgrows.hears hd

/-- An input of a replica that the network may give it. -/
theorem input (h : s.Faithful P D dummy cond built) (hr : D.Correct r) {e : Input H Sig}
    (hstep : (s.node r).step P e = some b') (hsend : s.sys.maySend P D r e = true)
    (hsrc : ∀ src hash slice, e = .slice src hash slice → src < D.n)
    (hfetch : ∀ x r src data, cond x (.fetch r src data))
    (hcond : ∀ ev ∈ (s.node r).makes r e, cond (s.sys, built) ev) :
    (s.set r b').Faithful P D dummy cond ((s.builds P (r, .turn e)).toList ++ built) := by
  have hreach : s.sys.Reachable P D dummy := Sys.reachable_building h.reaches
  obtain ⟨hid, hn, _⟩ := hreach.valid hr
  have hpending := h.pending r hr
  have htakes := hpending.step_takes (r := r) hstep
  have hheard := (h.heard r hr).step hstep (Sys.hears_of_maySend hsend)
  have hset {built' : List (H × List UInt256)}
      (hsteps : Transition.Reaches (Sys.stepBuilding P D) cond (s.sys, built)
        (s.sys.set r b'.replica, built')) : (s.set r b').Faithful P D dummy cond built' :=
    h.set hr hsteps (hpending.step hstep).1 hheard
  have nothing (hmakes : (s.node r).makes r e = []) :
      Transition.Reaches (Sys.stepBuilding P D) cond (s.sys, built)
        (s.sys.set r b'.replica, built) := by
    rw [hmakes] at htakes
    have heq : s.sys.set r b'.replica = s.sys := by
      rw [← Option.some.inj htakes]
      exact Sys.set_same s.sys r
    rw [heq]
    exact .refl
  have single {ev : Event H Sig} (hmakes : (s.node r).makes r e = [ev]) (hat : ev.at_ = r)
      (hv : s.sys.Vouched P D ev) : Transition.Reaches (Sys.stepBuilding P D) cond (s.sys, built)
        (s.sys.set r b'.replica, (s.sys.builds P ev).toList ++ built) := by
    rw [hmakes] at htakes
    obtain ⟨nd, hnd, hlast⟩ := Option.bind_eq_some_iff.mp htakes
    obtain rfl := Option.some.inj hlast
    have hev : cond (s.sys, built) ev := by
      apply hcond
      rw [hmakes]
      exact List.mem_singleton_self ev
    rw [← hat] at hr hnd ⊢
    exact Sys.building_single hreach hr hnd hv hev
  have fetches {src : ReplicaID} (ds : List (BlockData H Sig))
      (hmakes : (s.node r).makes r e = ds.map (.fetch r src)) (hpeer : (s.node r).peer src = true)
      (hsent : ∀ data ∈ ds, (s.sys.blockSent P D src data && s.sys.qcUnforged P D data.qc) = true) :
      Transition.Reaches (Sys.stepBuilding P D) cond (s.sys, built)
        (s.sys.set r b'.replica, built) := by
    rw [hmakes] at htakes
    simp only [HotStuffBase.peer, Bool.and_eq_true, decide_eq_true_eq] at hpeer
    have hne : src ≠ r := by
      rw [← hid]
      exact hpeer.1
    have hlt : src < D.n := by
      rw [← hn]
      exact hpeer.2
    refine Sys.building_fetches (fun x data => hfetch x r src data) hreach hr htakes ?_
    intro data hdata
    have hboth := Bool.and_eq_true_iff.mp (hsent data hdata)
    exact ⟨hlt, hne, hboth.1, hboth.2⟩
  cases e with
  | propose src proposer sHash slice data =>
    simp only [HotStuffBase.step, Option.ite_none_right_eq_some, Bool.and_eq_true] at hstep
    simp only [Sys.maySend, Bool.and_eq_true] at hsend
    refine hset (fetches [data] rfl hstep.1.1.2 fun d hd => ?_)
    rw [List.mem_singleton.mp hd, hsend.1.2, hsend.2]
    rfl
  | vote src vote => exact hset (nothing rfl)
  | reqBlock src hashes => exact hset (nothing rfl)
  | respBlock src blks complete =>
    simp only [HotStuffBase.step, Option.ite_none_right_eq_some, Bool.and_eq_true] at hstep
    exact hset (fetches blks rfl hstep.1.2 (List.all_eq_true.mp hsend))
  | slice src hash slice => exact hset (single rfl rfl ⟨hsrc src hash slice rfl, hsend⟩)
  | verified pm => exact hset (nothing rfl)
  | proceed ord =>
    cases hdue : (s.node r).due with
    | none =>
      apply hset (nothing _)
      rw [HotStuffBase.makes, hdue]
      rfl
    | some x =>
      obtain ⟨done, values⟩ := x
      have hmakes : (s.node r).makes r (.proceed ord) = done.makes r ord values := by
        rw [HotStuffBase.makes, hdue]
        exact List.append_nil _
      obtain ⟨a, ha, hdone⟩ := HotStuffBase.mem_of_due hdue
      have hears := (h.heard r hr).alls a ha
      rw [hdone] at hears
      cases done with
      | onDeliverBlk blk data =>
        rw [Then.makes] at hmakes
        split at hmakes
        · exact hset (single hmakes rfl trivial)
        · exact hset (nothing hmakes)
      | onReceiveProposal prop => exact hset (single hmakes rfl (hears rfl))
      | onReceiveVote vote =>
        rw [Then.makes] at hmakes
        split at hmakes
        · exact hset (single hmakes rfl (hears rfl))
        · exact hset (nothing hmakes)
      | sendBlocks replica hashes => exact hset (nothing hmakes)
  | onPropose ord cmds parents extra => exact hset (single rfl rfl trivial)
  | asyncQcFinish blk => exact hset (single rfl rfl trivial)
  | runTask ord toSelf => exact hset (single rfl rfl trivial)

/-- A replica takes in bytes or goes on. -/
theorem step (h : s.Faithful P D dummy cond built) {e : ReplicaID × Arrival H Sig}
    (hstep : s.step P F name D e = some s') (hfetch : ∀ x r src data, cond x (.fetch r src data))
    (hcond : ∀ ev ∈ s.makes F name e, cond (s.sys, built) ev) :
    s'.Faithful P D dummy cond ((s.builds P e).toList ++ built) := by
  obtain ⟨r, a⟩ := e
  simp only [PeerNetwork.step, Option.ite_none_right_eq_some, Option.map_eq_some_iff] at hstep
  obtain ⟨⟨hr, hmay⟩, b', harrive, rfl⟩ := hstep
  have dropped (hreplica : b'.replica = (s.node r).replica) (hp : b'.Pending P)
      (hheard : b'.Heard (s.sys.Hears P D r)) : (s.set r b').Faithful P D dummy cond built := by
    refine h.set hr ?_ hp hheard
    have heq : s.sys.set r b'.replica = s.sys := by
      rw [hreplica]
      exact Sys.set_same s.sys r
    rw [heq]
    exact .refl
  cases a with
  | message src op bytes =>
    simp only [HotStuffBase.arrive, HotStuffBase.receive, Option.ite_none_right_eq_some] at harrive
    obtain ⟨hidle, harrive⟩ := harrive
    simp only [mayArrive] at hmay
    simp only [makes] at hcond
    split at harrive
    · rename_i e rest hparse
      simp only [hparse] at hmay hcond
      have hfrom := Opcode.parse_fromPeer hparse
      have hbuilds : s.builds P (r, .turn e) = none := by
        cases e with
        | onPropose ord cmds parents extra => exact hfrom.elim
        | _ => rfl
      have hnext := h.input hr harrive hmay (fun src' hash slice heq => ?_) hfetch hcond
      · rwa [hbuilds] at hnext
      · subst heq
        obtain ⟨_, hn, _⟩ := (Sys.reachable_building h.reaches).valid hr
        simp only [HotStuffBase.peer, Bool.and_eq_true, decide_eq_true_eq] at hidle
        rw [hfrom.1, ← hn]
        exact hidle.2.2
    · obtain rfl := Option.some.inj harrive
      exact dropped rfl ((h.pending r hr).unwind (_ :: _) _) ((h.heard r hr).unwound rfl rfl)
    · obtain rfl := Option.some.inj harrive
      exact dropped rfl ((h.pending r hr).unwind _ true) ((h.heard r hr).unwound rfl rfl)
  | turn e =>
    simp only [HotStuffBase.arrive, Option.ite_none_right_eq_some] at harrive
    obtain ⟨hturn, hstep⟩ := harrive
    refine h.input hr hstep ?_ (fun src hash slice heq => ?_) hfetch hcond
    · cases e with
      | verified | proceed | onPropose | asyncQcFinish | runTask => rfl
      | _ => cases hturn
    · subst heq
      cases hturn

end Faithful

theorem faithful_run {cond : Sys H Sig × List (H × List UInt256) → Event H Sig → Prop}
    (hfetch : ∀ x r src data, cond x (.fetch r src data))
    {x : PeerNetwork H Sig × List (H × List UInt256)}
    (h : Transition.Reaches (stepBuilding P F name D)
      (fun x e => ∀ ev ∈ x.1.makes F name e, cond (x.1.sys, x.2) ev) (init P D dummy, []) x) :
    x.1.Faithful P D dummy cond x.2 := by
  apply h.invariant
  · exact init_faithful P D dummy cond
  · intro y e y' hy hcond hstep
    obtain ⟨s, hs, rfl⟩ := Option.map_eq_some_iff.mp hstep
    exact hy.step hs hfetch hcond

/-- The replicas as they run do what the replicas of the network do: in every run of replicas that
send each other bytes, fetch blocks, verify with workers and handle a message when its block has been
delivered, the replicas below the handlers make a run of the network, in which each message is
handled when all that it needs is there. A condition that holds of each event that is made, storing a
block aside, holds of each step of that run. -/
theorem peers_refine {cond : Sys H Sig × List (H × List UInt256) → Event H Sig → Prop}
    (hfetch : ∀ x r src data, cond x (.fetch r src data))
    {x : PeerNetwork H Sig × List (H × List UInt256)}
    (h : Transition.Reaches (stepBuilding P F name D)
      (fun x e => ∀ ev ∈ x.1.makes F name e, cond (x.1.sys, x.2) ev) (init P D dummy, []) x) :
    Transition.Reaches (Sys.stepBuilding P D) cond (Sys.init P D dummy, []) (x.1.sys, x.2) :=
  (faithful_run hfetch h).reaches

end PeerNetwork

namespace Concrete

open DataStream Codec
open Wire.Concrete (hashName)

/-- A block on the wire. -/
def blockBytes (d : BlockData Nat Signature) : Bytes :=
  putUInt32 d.parentHashes.length ++ (d.parentHashes.flatMap (leBytes 32) ++
    (putUInt32 d.cmds.length ++ (d.cmds.flatMap (leBytes 32) ++ (leBytes 32 d.qc.objHash ++
      (signatureFormats.putBits (d.qc.sigs.map Option.isSome) ++
        (d.qc.sigs.reduceOption.flatMap signatureFormats.putSig ++ putArray d.extra))))))

/-- The `MsgPropose` of a replica. -/
def proposalBytes (src : ReplicaID) (prop : Proposal Nat) (d : BlockData Nat Signature) :
    Arrival Nat Signature :=
  .message src .propose (leBytes 2 prop.proposer ++ (leBytes 32 prop.sHash ++
    (sliceBytes prop.slice prop.slice.mBranch.flatten ++ blockBytes d)))

/-- Replica `r` goes on `n` times. -/
def turns (r : ReplicaID) (n : Nat) (e : Input Nat Signature) :
    List (ReplicaID × Arrival Nat Signature) :=
  List.replicate n (r, .turn e)

/-- Replica `r` gets the proposal of block `h`, of which workers verify the certificate. -/
def takeProposal (r h : Nat) (message : Arrival Nat Signature) :
    List (ReplicaID × Arrival Nat Signature) :=
  (r, message) ::
    if h = 1 then turns r 9 (.proceed []) ++ turns r 3 (.runTask [] false)
    else turns r 6 (.proceed []) ++ turns r 1 (.verified (5 * h - 3)) ++ turns r 2 (.proceed []) ++
      turns r 3 (.runTask [] false) ++ turns r 1 (.proceed [])

/-- Replicas 0 and 1 get the first four blocks of the chain from replica 3. -/
def offeredRun : List (ReplicaID × Arrival Nat Signature) :=
  [1, 2, 3, 4].flatMap fun h => chainBlocks[h - 1]?.toList.flatMap fun d =>
    [0, 1].flatMap fun r => takeProposal r h (proposalBytes 3 (offered chainBlocks h) d)

set_option maxRecDepth 100000 in
theorem offered_run :
    (Transition.runBy
      (PeerNetwork.stepBuilding (primitives chainBlocks []) signatureFormats hashName fourReplicas)
      (fun x e => ∀ ev ∈ x.1.makes signatureFormats hashName e,
        x.1.sys.votesSoundly (primitives chainBlocks []) ev = true)
      (PeerNetwork.init (primitives chainBlocks []) fourReplicas noCert, []) offeredRun).map
        (fun x => (consensusLog (x.1.node 0).replica.log, consensusLog (x.1.node 1).replica.log)) =
      some ([1], [1]) := by
  decide +kernel

/-- Replicas 0 and 1 commit the first block. -/
theorem peers_refine_offered : ∃ x : PeerNetwork Nat Signature × List (Nat × List UInt256),
    consensusLog (x.1.sys.node 0).log = [1] ∧ consensusLog (x.1.sys.node 1).log = [1] ∧
      Transition.Reaches (Sys.stepBuilding (primitives chainBlocks []) fourReplicas)
        (fun x e => x.1.votesSoundly (primitives chainBlocks []) e = true)
        (Sys.init (primitives chainBlocks []) fourReplicas noCert, []) (x.1.sys, x.2) := by
  obtain ⟨x, hreach, hlogs⟩ := Transition.runBy_map_reaches offered_run
  obtain ⟨h₀, h₁⟩ := Prod.mk.inj hlogs
  exact ⟨x, h₀, h₁, PeerNetwork.peers_refine (fun _ _ _ _ => rfl) hreach⟩

end Concrete
end LibHotStuff
