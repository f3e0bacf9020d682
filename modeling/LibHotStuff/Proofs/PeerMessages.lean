import LibHotStuff.Proofs.PeerTurns

/-! The messages that a replica has got and not handled yet. -/

namespace LibHotStuff

variable {H Sig : Type} [DecidableEq H] {P : Primitives H Sig}

/-- The message that a turn of the handler is going to wait with. -/
def Frame.awaits : Frame H Sig → Option (Then H Sig)
  | .awaitProposal prop _ => some (.onReceiveProposal prop)
  | .awaitVote vote _ => some (.onReceiveVote vote)
  | _ => none

def Then.isMessage : Then H Sig → Bool
  | .onReceiveProposal _ => true
  | .onReceiveVote _ => true
  | _ => false

/-- The message that an input makes the handler wait with. -/
def Input.message (P : Primitives H Sig) : Input H Sig → Option (Then H Sig)
  | .propose src proposer sHash sl data =>
    if src = proposer then
      some (.onReceiveProposal
        { proposer := proposer, sHash := sHash, slice := sl, blk := P.hashBlock data })
    else none
  | .vote _ v => some (.onReceiveVote v)
  | _ => none

namespace HotStuffBase

variable {b b' : HotStuffBase H Sig} {ok : Then H Sig → Prop}

/-- The messages that a replica has got and not handled yet are among those that `ok` holds of. -/
structure Heard (ok : Then H Sig → Prop) (b : HotStuffBase H Sig) : Prop where
  frames : ∀ f ∈ b.frames, ∀ d ∈ f.awaits, ok d
  alls : ∀ a ∈ b.alls, a.done.isMessage = true → ok a.done

omit [DecidableEq H] in
theorem mem_of_due {done : Then H Sig} {values : List (Option Bool)} (h : b.due = some (done, values)) :
    ∃ a ∈ b.alls, a.done = done := by
  unfold due at h
  split at h
  · obtain ⟨a, ha, hdone⟩ := Option.bind_eq_some_iff.mp h
    simp only [Option.ite_none_right_eq_some, Option.some.injEq, Prod.mk.injEq] at hdone
    exact ⟨a, List.mem_of_getElem? ha, hdone.2.1⟩
  · cases h

namespace Heard

omit [DecidableEq H] in
theorem mono {ok' : Then H Sig → Prop} (h : b.Heard ok) (hok : ∀ d, ok d → ok' d) : b.Heard ok' :=
  ⟨fun f hf d hd => hok d (h.frames f hf d hd), fun a ha hm => hok _ (h.alls a ha hm)⟩

omit [DecidableEq H] in
/-- The handler goes on with other things that wait with no message. -/
theorem goes (h : b.Heard ok) (fs : List (Frame H Sig)) (hframes : b'.frames = fs ++ b.frames)
    (hfs : ∀ f ∈ fs, f.awaits = none) (halls : b'.alls = b.alls) : b'.Heard ok := by
  refine ⟨fun f hf d hd => ?_, fun a ha => h.alls a (halls ▸ ha)⟩
  rw [hframes] at hf
  obtain hf | hf := List.mem_append.mp hf
  · rw [hfs f hf] at hd
    cases hd
  · exact h.frames f hf d hd

omit [DecidableEq H] in
theorem unwound (h : b.Heard ok) (hframes : b'.frames = []) (halls : b'.alls = b.alls) : b'.Heard ok := by
  refine ⟨fun f hf => ?_, fun a ha => h.alls a (halls ▸ ha)⟩
  rw [hframes] at hf
  cases hf

omit [DecidableEq H] in
theorem awaits_calls {ks : List (Callback H × Bool)} :
    ∀ f ∈ (calls ks : List (Frame H Sig)), f.awaits = none := by
  intro f hf
  obtain ⟨k, _, rfl⟩ := List.mem_map.mp hf
  rfl

theorem asyncDeliverBlk (h : b.Heard ok) (blk : H) {next : Nat → Frame H Sig}
    (hnext : ∀ pm, ∀ d ∈ (next pm).awaits, ok d) : (b.asyncDeliverBlk blk next).Heard ok := by
  have hpush {b' : HotStuffBase H Sig} (fs : List (Frame H Sig)) {pm : Nat}
      (hframes : b'.frames = (fs ++ [next pm]) ++ b.frames) (hfs : ∀ f ∈ fs, f.awaits = none)
      (halls : b'.alls = b.alls) : b'.Heard ok := by
    refine ⟨fun f hf d hd => ?_, fun a ha => h.alls a (halls ▸ ha)⟩
    rw [hframes, List.append_assoc] at hf
    obtain hf | hf := List.mem_append.mp hf
    · rw [hfs f hf] at hd
      cases hd
    obtain rfl | hf := List.mem_cons.mp hf
    · exact hnext pm d hd
    · exact h.frames f hf d hd
  unfold HotStuffBase.asyncDeliverBlk
  split
  · exact hpush [] rfl (fun f hf => by cases hf) rfl
  split
  · exact hpush [] rfl (fun f hf => by cases hf) rfl
  · have hsame := asyncFetchBlk_same ({ (b.newPromise (.delivered blk) (.pending [])).1 with
      blkDeliveryWaiting := Function.update b.blkDeliveryWaiting blk (some b.promises.length) } :
        HotStuffBase H Sig) blk
    exact hpush (calls _) (congrArg (_ ++ ·) hsame.2.1) awaits_calls hsame.2.2

omit [DecidableEq H] in
theorem await (h : b.Heard ok) (pms : List Nat) {done : Then H Sig}
    (hdone : done.isMessage = true → ok done) : (b.await pms done).Heard ok := by
  have hall : ({ b with alls := b.alls ++ [{ done := done, values := pms.map fun _ => none }] } :
      HotStuffBase H Sig).Heard ok := by
    refine ⟨h.frames, fun a ha hm => ?_⟩
    obtain ha | ha := List.mem_append.mp ha
    · exact h.alls a ha hm
    · rw [List.mem_singleton.mp ha] at hm ⊢
      exact hdone hm
  exact hall.goes (calls _) rfl awaits_calls rfl

omit [DecidableEq H] in
theorem settle (h : b.Heard ok) (nd : Replica H Sig) : (b.settle nd).Heard ok := by
  refine ⟨fun f hf => ?_, h.alls⟩
  unfold HotStuffBase.settle at hf
  dsimp only at hf
  split at hf
  · exact h.frames f hf
  · cases hf

theorem onFetched (h : b.Heard ok) (blk : H) : (b.onFetched blk).Heard ok := by
  unfold HotStuffBase.onFetched
  split
  · exact h.unwound rfl rfl
  rename_i stored _
  dsimp only
  split
  · exact h.unwound rfl rfl
  · rename_i r _
    have hsame := asyncFetchBlk_same (b.newPromise (.certified stored.qc)
      (r.elim (.pending []) .fulfilled)).1 stored.qc.objHash
    refine h.goes [_] (congrArg (_ :: ·) hsame.2.1) (fun f hf => ?_) hsame.2.2
    rw [List.mem_singleton.mp hf]
    rfl

theorem onDeliverBlk (h : b.Heard ok) (blk : H) : (b.onDeliverBlk blk).Heard ok := by
  unfold HotStuffBase.onDeliverBlk
  split
  · exact h.unwound rfl rfl
  split
  · have hs := h.settle (b.replica.absorb [] [] (b.core.onDeliverBlk blk))
    dsimp only
    split
    · exact hs
    split
    · exact hs
    split
    · exact hs.goes [] rfl (fun f hf => by cases hf) rfl
    · refine hs.goes (calls _ ++ [.eraseDelivery blk]) rfl (fun f hf => ?_) rfl
      obtain hf | hf := List.mem_append.mp hf
      · exact awaits_calls f hf
      · rw [List.mem_singleton.mp hf]
        rfl
  · exact h.unwound rfl rfl

theorem fulfil (h : b.Heard ok) (ord : List H) (values : List (Option Bool)) (done : Then H Sig) :
    (b.fulfil P ord values done).Heard ok := by
  cases done with
  | onDeliverBlk blk data =>
    simp only [HotStuffBase.fulfil]
    split
    · exact h.onDeliverBlk blk
    · exact h
  | onReceiveProposal prop => exact h.settle _
  | onReceiveVote vote =>
    simp only [HotStuffBase.fulfil]
    split
    · exact h.settle _
    · exact h
  | sendBlocks replica hashes => exact h

theorem fill (h : b.Heard ok) (ord : List H) (ctx idx : Nat) (v : Bool) :
    (b.fill P ord ctx idx v).Heard ok := by
  unfold HotStuffBase.fill
  split
  · exact h
  rename_i a ha
  have hset : ({ b with alls := b.alls.set ctx { a with values := a.values.set idx (some v) } } :
      HotStuffBase H Sig).Heard ok := by
    refine ⟨h.frames, fun a' ha' hm => ?_⟩
    obtain ha' | rfl := List.mem_or_eq_of_mem_set ha'
    · exact h.alls a' ha' hm
    · exact h.alls a (List.mem_of_getElem? ha) hm
  dsimp only
  split
  · exact hset.fulfil ord _ _
  · exact hset

theorem run (h : b.Heard ok) (ord : List H) {f : Frame H Sig} (hf : ∀ d ∈ f.awaits, ok d) :
    (b.run P ord f).Heard ok := by
  cases f with
  | call k v =>
    cases k with
    | fetched blk => exact h.onFetched blk
    | part ctx idx => exact h.fill ord ctx idx v
  | deliverParents blk data parents pms =>
    cases parents with
    | nil => exact h.await pms fun hm => by cases hm
    | cons p ps => exact h.asyncDeliverBlk p fun pm d hd => by cases hd
  | awaitProposal prop pm => exact h.await [pm] fun _ => hf _ rfl
  | awaitVote vote pm =>
    simp only [HotStuffBase.run]
    split
    · have hp : (b.newPromise (.signed vote) (.pending [])).1.Heard ok := ⟨h.frames, h.alls⟩
      exact hp.await _ fun _ => hf _ rfl
    · exact h.unwound rfl rfl
  | onFetchBlk blk =>
    simp only [HotStuffBase.run]
    split
    · exact h
    · refine h.goes (calls _ ++ [.eraseFetch blk]) rfl (fun f hf => ?_) rfl
      obtain hf | hf := List.mem_append.mp hf
      · exact awaits_calls f hf
      · rw [List.mem_singleton.mp hf]
        rfl
  | eraseFetch blk => exact ⟨h.frames, h.alls⟩
  | eraseDelivery blk => exact ⟨h.frames, h.alls⟩

theorem addBlks_same (b : HotStuffBase H Sig) (ds : List (BlockData H Sig)) :
    (ds.foldl (HotStuffBase.addBlk P) b).frames = b.frames ∧
      (ds.foldl (HotStuffBase.addBlk P) b).alls = b.alls := by
  induction ds generalizing b with
  | nil => exact ⟨rfl, rfl⟩
  | cons d ds ih => exact ih _

/-- Every step keeps what `ok` says of the messages that wait, if it holds of the new one. -/
theorem step (h : b.Heard ok) {e : Input H Sig} (hstep : b.step P e = some b')
    (hnew : ∀ d ∈ e.message P, ok d) : b'.Heard ok := by
  have hreplica {e : Event H Sig} (hof : b.ofReplica P e = some b') : b'.Heard ok := by
    simp only [HotStuffBase.ofReplica, Option.ite_none_right_eq_some, Option.map_eq_some_iff] at hof
    obtain ⟨_, nd, _, rfl⟩ := hof
    exact h.settle nd
  cases e with
  | propose src proposer sHash slice data =>
    simp only [HotStuffBase.step, Option.ite_none_right_eq_some, Option.some.injEq] at hstep
    obtain ⟨_, rfl⟩ := hstep
    have hadd : (b.addBlk P data).Heard ok := ⟨h.frames, h.alls⟩
    unfold HotStuffBase.proposeHandler
    dsimp only
    split
    · exact hadd.unwound rfl rfl
    split
    · exact hadd
    · rename_i heq
      refine hadd.asyncDeliverBlk _ fun pm d hd => hnew d ?_
      rw [Input.message, if_pos (not_not.mp heq)]
      exact hd
  | vote src vote =>
    simp only [HotStuffBase.step, Option.ite_none_right_eq_some, Option.some.injEq] at hstep
    obtain ⟨_, rfl⟩ := hstep
    exact h.asyncDeliverBlk _ fun pm d hd => hnew d hd
  | reqBlock src hashes =>
    simp only [HotStuffBase.step, Option.ite_none_right_eq_some, Option.some.injEq] at hstep
    obtain ⟨_, rfl⟩ := hstep
    have hsame := fetchAll_same hashes (b, [])
    unfold HotStuffBase.reqBlkHandler
    dsimp only
    split
    · exact h.unwound rfl hsame.2.2
    · have hfetched : (hashes.foldl
          (fun c h => ((c.1.asyncFetchBlk h).1, c.2 ++ [(c.1.asyncFetchBlk h).2])) (b, [])).1.Heard ok :=
        h.goes [] hsame.2.1 (fun f hf => by cases hf) hsame.2.2
      exact hfetched.await _ fun hm => by cases hm
  | respBlock src blks complete =>
    simp only [HotStuffBase.step, Option.ite_none_right_eq_some, Option.some.injEq] at hstep
    obtain ⟨_, rfl⟩ := hstep
    have hsame := addBlks_same (P := P) b blks
    unfold HotStuffBase.respBlkHandler
    dsimp only
    split
    · refine h.goes (blks.map fun data => .onFetchBlk (P.hashBlock data))
        (congrArg (_ ++ ·) hsame.1) (fun f hf => ?_) hsame.2
      obtain ⟨data, _, rfl⟩ := List.mem_map.mp hf
      rfl
    · exact h.unwound rfl hsame.2
  | slice src hash slice => exact hreplica hstep
  | verified pm =>
    simp only [HotStuffBase.step, Option.ite_none_right_eq_some, HotStuffBase.verified] at hstep
    obtain ⟨_, hstep⟩ := hstep
    split at hstep
    · obtain rfl := Option.some.inj hstep
      exact h.goes (calls _) rfl awaits_calls rfl
    · obtain rfl := Option.some.inj hstep
      exact h.goes (calls _) rfl awaits_calls rfl
    · cases hstep
  | proceed ord =>
    simp only [HotStuffBase.step, Option.ite_none_right_eq_some] at hstep
    obtain ⟨_, hstep⟩ := hstep
    split at hstep
    · cases hstep
    rename_i f rest hframes
    obtain rfl := Option.some.inj hstep
    have hrest : ({ b with frames := rest } : HotStuffBase H Sig).Heard ok := by
      refine ⟨fun g hg => h.frames g ?_, h.alls⟩
      rw [hframes]
      exact List.mem_cons_of_mem f hg
    apply hrest.run ord
    apply h.frames f
    rw [hframes]
    exact List.mem_cons_self
  | onPropose ord cmds parents extra => exact hreplica hstep
  | asyncQcFinish blk => exact hreplica hstep
  | runTask ord toSelf => exact hreplica hstep

end Heard
end HotStuffBase

end LibHotStuff
