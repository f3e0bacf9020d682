import LibHotStuff.Proofs.Pending

/-! The handlers and the callbacks of a replica keep its promises in order, and move the replica below
by steps of its own. -/

namespace LibHotStuff

open Promises

variable {H Sig : Type} {P : Primitives H Sig}

namespace HotStuffBase

variable {b b' b'' : HotStuffBase H Sig}

/-- A step of the replica other than a proposal of its own. -/
def Turn (P : Primitives H Sig) [DecidableEq H] (nd nd' : Replica H Sig) : Prop :=
  ∃ e, nd.builds P e = none ∧ nd.handle P e = some nd'

/-- The promises are in order again, and the replica has only made steps of its own. -/
structure Goes (P : Primitives H Sig) [DecidableEq H] (b b' : HotStuffBase H Sig) : Prop where
  pending : b'.Pending P
  turns : Relation.ReflTransGen (Turn P) b.replica b'.replica

variable [DecidableEq H]

theorem Pending.turn (h : b.Pending P) {nd : Replica H Sig} (ht : Turn P b.replica nd) :
    (b.settle nd).Pending P ∧ b.Later P (b.settle nd) := by
  obtain ⟨e, hbuilds, he⟩ := ht
  have ha : b.replica.core.Advances P (fun _ => False) nd.core := by
    apply Replica.handle_advances h.wellFormed _ he
    intro x hx
    rw [hbuilds] at hx
    cases hx
  exact h.settle ha

namespace Pending

theorem onDeliverBlk (h : b.Pending P) {blk : H} (hidle : b.replica.idle = true)
    (hd : Replica.deliverable P b.replica.core blk = true) : b.Goes P (b.onDeliverBlk blk) := by
  have hturn : Turn P b.replica (b.replica.absorb [] [] (b.replica.core.onDeliverBlk blk)) := by
    refine ⟨.deliver b.replica.core.id blk, rfl, ?_⟩
    rw [Replica.handle, hidle, hd]
    rfl
  obtain ⟨hp, hl⟩ := h.turn hturn
  have hgoes {b' : HotStuffBase H Sig} (hb' : b'.Pending P)
      (hreplica : b'.replica = b.replica.absorb [] [] (b.replica.core.onDeliverBlk blk)) :
      b.Goes P b' := by
    refine ⟨hb', ?_⟩
    rw [hreplica]
    exact .single hturn
  obtain ⟨hgrow, _, _, hthrow⟩ := Core.deliver_grows h.wellFormed hd
  have hdone := (Core.onDeliverBlk_grows h.wellFormed blk rfl (hthrow _)).2.2.2
  unfold Replica.deliverable at hd
  unfold HotStuffBase.onDeliverBlk
  split
  · rename_i hnone
    have hnone : b.replica.core.storage blk = none := hnone
    simp [hnone] at hd
  rename_i stored hst
  have hst : b.replica.core.storage blk = some stored := hst
  simp only [hst, Bool.and_eq_true] at hd
  have hpar : stored.parentHashes.all b.core.delivered = true := hd.2
  rw [if_pos hpar]
  dsimp only
  split
  · exact hgoes hp rfl
  rename_i hexit
  have hexit : (b.replica.core.onDeliverBlk blk).exit = none := by
    rw [← Option.not_isSome_iff_eq_none]
    exact hexit
  have hdel := hdone hexit
  split
  · exact hgoes hp rfl
  rename_i pm hpm
  have hgoal := hp.deliveryWaiting blk pm hpm
  split
  · have hl' : (b.settle (b.replica.absorb [] [] (b.replica.core.onDeliverBlk blk))).Later P
        { b.settle (b.replica.absorb [] [] (b.replica.core.onDeliverBlk blk)) with
          promises := b.promises.reject pm
          blkDeliveryWaiting := Function.update b.blkDeliveryWaiting blk none } := by
      refine ⟨.refl hp.wellFormed, fun pm g hg => ?_, fun _ _ hd => hd⟩
      rw [goal_reject]
      exact hg
    apply hgoes _ rfl
    refine hp.later hl' rfl hp.sound.reject (fun f hf => hl'.frameOk (hp.frames f hf))
      (fun _ _ => Or.inl) fun x q hx => Or.inl (of_erase hx)
  · obtain ⟨hp₂, hl₂, hcalls⟩ := hp.resolve pm true (fun a ha => by
      rw [hgoal] at ha
      rw [← Option.some.inj ha]
      change (b.replica.absorb [] [] _).core.delivered blk = true
      rw [Replica.absorb_core]
      exact hdel)
    refine hgoes (hp₂.push fun f hf => ?_) rfl
    obtain hf | hf := List.mem_append.mp hf
    · exact hl₂.frameOk (calls_ok hcalls f hf)
    · rw [List.mem_singleton.mp hf]
      trivial

omit [DecidableEq H] in
/-- The values that an `all` has collected. -/
theorem collected {values : List (Option Bool)} {gs : List (Awaited H Sig)} {c : Core H Sig}
    (hmet : ∀ (i : Nat) v g, values[i]? = some (some v) → gs[i]? = some g → g.Met P c v)
    (hall : values.all Option.isSome = true) (hlen : values.length = gs.length) {i : Nat}
    {g : Awaited H Sig} (hg : gs[i]? = some g) :
    ∃ v, values[i]? = some (some v) ∧ g.Met P c v := by
  have hlt : i < values.length := by
    rw [hlen]
    exact (List.getElem?_eq_some_iff.mp hg).1
  have hsome := List.all_eq_true.mp hall values[i] (List.getElem_mem hlt)
  obtain ⟨v, hv⟩ := Option.isSome_iff_exists.mp hsome
  have hat : values[i]? = some (some v) := by rw [List.getElem?_eq_getElem hlt, hv]
  exact ⟨v, hat, hmet i v g hat hg⟩

/-- A block can be delivered when all that its delivery waits for has arrived. -/
theorem deliverable (h : b.Pending P) {values : List (Option Bool)} {blk : H} {data : BlockData H Sig}
    (hvalid : (Then.onDeliverBlk blk data : Then H Sig).Valid P b.replica.core)
    (hmet : ∀ (i : Nat) v g, values[i]? = some (some v) →
      (Then.onDeliverBlk blk data).goals[i]? = some g → g.Met P b.replica.core v)
    (hall : values.all Option.isSome = true)
    (hlen : values.length = (Then.onDeliverBlk blk data).goals.length)
    (hv : values[0]? = some (some true)) : Replica.deliverable P b.replica.core blk = true := by
  obtain ⟨hst, hhash, hgen⟩ := hvalid
  obtain ⟨stored, hst⟩ := Option.isSome_iff_exists.mp hst
  obtain rfl : stored.toBlockData = data :=
    P.hashBlock_injective ((h.wellFormed.dag.hashed hst hgen).trans hhash.symm)
  have hcert : b.replica.core.Certifies P stored.qc := hmet 0 true _ hv rfl rfl
  obtain ⟨_, _, hqc⟩ := collected hmet hall hlen (i := 1) rfl
  have hpar (p : H) (hp : p ∈ stored.parentHashes) : b.replica.core.delivered p = true := by
    obtain ⟨i, hi⟩ := List.getElem?_of_mem hp
    have hat : (Then.onDeliverBlk blk stored.toBlockData : Then H Sig).goals[i + 2]? =
        some (.delivered p) := by
      simp [Then.goals, hi]
    obtain ⟨_, _, hd⟩ := collected hmet hall hlen hat
    exact hd
  unfold Replica.deliverable
  simp only [hst, Bool.and_eq_true, Bool.or_eq_true, decide_eq_true_eq, beq_iff_eq,
    List.all_eq_true, h.wellFormed.dag.b0]
  exact ⟨⟨hcert, hqc⟩, hpar⟩

/-- A proposal of which the block is delivered is received. -/
theorem proposalTurn (hidle : b.replica.idle = true) (ord : List H) {values : List (Option Bool)}
    {prop : Proposal H} (hvalid : (Then.onReceiveProposal prop : Then H Sig).Valid P b.replica.core)
    (hmet : ∀ (i : Nat) v g, values[i]? = some (some v) →
      (Then.onReceiveProposal prop : Then H Sig).goals[i]? = some g → g.Met P b.replica.core v)
    (hall : values.all Option.isSome = true)
    (hlen : values.length = (Then.onReceiveProposal prop : Then H Sig).goals.length) :
    Turn P b.replica (b.replica.absorb ord [] (b.replica.core.onReceiveProposal P prop)) := by
  obtain ⟨_, _, hd⟩ := collected hmet hall hlen (i := 0) rfl
  refine ⟨.receiveProposal b.replica.core.id prop.proposer ord prop, rfl, ?_⟩
  have hd : b.replica.core.delivered prop.blk = true := hd
  simp [Replica.handle, hidle, hvalid.1, hvalid.2.1, hvalid.2.2, hd]

/-- A vote that has been verified, and of which the block is delivered, is received. -/
theorem voteTurn (hidle : b.replica.idle = true) (ord : List H) {values : List (Option Bool)}
    {vote : Vote H Sig} (hvalid : (Then.onReceiveVote vote).Valid P b.replica.core)
    (hmet : ∀ (i : Nat) v g, values[i]? = some (some v) →
      (Then.onReceiveVote vote).goals[i]? = some g → g.Met P b.replica.core v)
    (hall : values.all Option.isSome = true)
    (hlen : values.length = (Then.onReceiveVote vote).goals.length)
    (hv : values[1]? = some (some true)) :
    Turn P b.replica (b.replica.absorb ord [] (b.replica.core.onReceiveVote vote)) := by
  obtain ⟨_, _, hd⟩ := collected hmet hall hlen (i := 0) rfl
  obtain ⟨hsig, hobj⟩ := hmet 1 true _ hv rfl rfl
  refine ⟨.receiveVote b.replica.core.id ord vote, rfl, ?_⟩
  have hd : b.replica.core.delivered vote.blkHash = true := hd
  have hvoter : vote.voter < b.replica.core.config.nreplicas := hvalid
  rw [hobj] at hsig
  simp [Replica.handle, hidle, hvoter, hsig, hobj, hd]

/-- All that the callback of an `all` needs has arrived. -/
theorem fulfil (h : b.Pending P) (hidle : b.replica.idle = true) (ord : List H)
    {values : List (Option Bool)} {done : Then H Sig} (hvalid : done.Valid P b.replica.core)
    (hmet : ∀ (i : Nat) v g, values[i]? = some (some v) → done.goals[i]? = some g →
      g.Met P b.replica.core v)
    (hall : values.all Option.isSome = true) (hlen : values.length = done.goals.length) :
    b.Goes P (b.fulfil P ord values done) := by
  cases done with
  | onDeliverBlk blk data =>
    unfold HotStuffBase.fulfil
    dsimp only
    split
    · rename_i hv
      exact h.onDeliverBlk hidle (h.deliverable hvalid hmet hall hlen hv)
    · exact ⟨h, .refl⟩
  | onReceiveProposal prop =>
    have hturn := proposalTurn hidle ord hvalid hmet hall hlen
    exact ⟨(h.turn hturn).1, .single hturn⟩
  | onReceiveVote vote =>
    unfold HotStuffBase.fulfil
    dsimp only
    split
    · rename_i hv
      have hturn := voteTurn hidle ord hvalid hmet hall hlen hv
      exact ⟨(h.turn hturn).1, .single hturn⟩
    · exact ⟨h, .refl⟩
  | sendBlocks replica hashes => exact ⟨h, .refl⟩

omit [DecidableEq H] in
/-- A value arrives that an `all` has waited for, and is kept with the others. -/
theorem filled (h : b.Pending P) {ctx idx : Nat} {v : Bool} {a : All H Sig}
    (ha : b.alls[ctx]? = some a) (hcall : b.CallOk P (.part ctx idx, v)) :
    ({ b with alls := b.alls.set ctx { a with values := a.values.set idx (some v) } } :
        HotStuffBase H Sig).Pending P ∧
      a.done.Valid P b.replica.core ∧ (a.values.set idx (some v)).length = a.done.goals.length ∧
      ∀ (i : Nat) w g, (a.values.set idx (some v))[i]? = some (some w) → a.done.goals[i]? = some g →
        g.Met P b.replica.core w := by
  have hmem := List.mem_of_getElem? ha
  have hlt := (List.getElem?_eq_some_iff.mp ha).1
  obtain ⟨hvalid, hlen⟩ := h.valid a hmem
  have hlen' : (a.values.set idx (some v)).length = a.done.goals.length := by
    rw [List.length_set, hlen]
  have hmet (i : Nat) (w : Bool) (g : Awaited H Sig)
      (hw : (a.values.set idx (some v))[i]? = some (some w)) (hg : a.done.goals[i]? = some g) :
      g.Met P b.replica.core w := by
    by_cases hi : idx = i
    · subst hi
      have hidx : idx < a.values.length := by
        rw [hlen]
        exact (List.getElem?_eq_some_iff.mp hg).1
      rw [List.getElem?_set_self hidx] at hw
      rw [← Option.some.inj (Option.some.inj hw)]
      obtain ⟨g', ⟨d, hd, hg'⟩, hm⟩ := hcall
      rw [HotStuffBase.doneAt, ha] at hd
      obtain rfl := Option.some.inj hd
      rw [hg] at hg'
      rw [Option.some.inj hg']
      exact hm
    · rw [List.getElem?_set_ne hi] at hw
      exact h.values a hmem i w g hw hg
  let b₁ : HotStuffBase H Sig :=
    { b with alls := b.alls.set ctx { a with values := a.values.set idx (some v) } }
  have hl : b.Later P b₁ := by
    refine ⟨.refl h.wellFormed, fun _ _ hg => hg, fun i d hd => ?_⟩
    rw [doneAt_set ha]
    exact hd
  refine ⟨⟨h.wellFormed, hl.sound h.sound, ?_, ?_, fun f hf => hl.frameOk (h.frames f hf),
    h.fetchWaiting, h.deliveryWaiting⟩, hvalid, hlen', hmet⟩
  · intro a' ha'
    obtain ha' | rfl := List.mem_or_eq_of_mem_set ha'
    · exact h.valid a' ha'
    · exact ⟨hvalid, hlen'⟩
  · intro a' ha'
    obtain ha' | rfl := List.mem_or_eq_of_mem_set ha'
    · exact h.values a' ha'
    · exact hmet

/-- A value arrives that the `all` has waited for. -/
theorem fill (h : b.Pending P) (hidle : b.replica.idle = true) (ord : List H) {ctx idx : Nat} {v : Bool}
    (hcall : b.CallOk P (.part ctx idx, v)) : b.Goes P (b.fill P ord ctx idx v) := by
  unfold HotStuffBase.fill
  split
  · exact ⟨h, .refl⟩
  rename_i a ha
  obtain ⟨hp, hvalid, hlen, hmet⟩ := h.filled ha hcall
  dsimp only
  split
  · rename_i hall
    obtain ⟨hpending, hturns⟩ := hp.fulfil hidle ord hvalid hmet hall hlen
    exact ⟨hpending, hturns⟩
  · exact ⟨hp, .refl⟩

theorem asyncDeliverBlk_replica (b : HotStuffBase H Sig) (blk : H) (next : Nat → Frame H Sig) :
    (b.asyncDeliverBlk blk next).replica = b.replica := by
  unfold HotStuffBase.asyncDeliverBlk
  split
  · rfl
  split
  · rfl
  · exact asyncFetchBlk_replica _ blk

theorem onFetched_replica (b : HotStuffBase H Sig) (blk : H) : (b.onFetched blk).replica = b.replica := by
  unfold HotStuffBase.onFetched
  split
  · rfl
  dsimp only
  split
  · rfl
  · exact asyncFetchBlk_replica _ _

/-- Nothing happens to the replica. -/
theorem goes (h : b'.Pending P) (heq : b'.replica = b.replica) : b.Goes P b' := by
  refine ⟨h, ?_⟩
  rw [heq]

/-- The handler goes on. -/
theorem run (h : b.Pending P) (hidle : b.replica.idle = true) (ord : List H) {f : Frame H Sig}
    (hf : b.FrameOk P f) : b.Goes P (b.run P ord f) := by
  cases f with
  | call k v =>
    cases k with
    | fetched blk =>
      obtain ⟨a, ⟨_, hgen⟩, _⟩ := hf
      exact goes (h.onFetched hgen) (onFetched_replica b blk)
    | part ctx idx => exact h.fill hidle ord hf
  | deliverParents blk data parents pms =>
    obtain ⟨hvalid, gs, hgs, hall⟩ := hf
    cases parents with
    | nil =>
      refine goes (h.await ?_ hvalid) rfl
      rw [hgs, ← hall, List.map_nil, List.append_nil]
    | cons p ps =>
      refine goes (h.asyncDeliverBlk fun b' pm hl hgoal => ?_) (asyncDeliverBlk_replica b p _)
      refine ⟨hvalid.mono hl.core, gs ++ [.delivered p], ?_, ?_⟩
      · rw [List.map_append, hl.map_goal hgs, List.map_append]
        simp only [List.map_cons, List.map_nil, hgoal]
      · rw [← hall, List.append_assoc]
        rfl
  | awaitProposal prop pm =>
    have hp : (b.await [pm] (.onReceiveProposal prop)).Pending P := by
      apply h.await _ hf.1
      simp only [List.map_cons, List.map_nil, hf.2, Then.goals]
    exact goes hp rfl
  | awaitVote vote pm =>
    unfold HotStuffBase.run
    dsimp only
    split
    · rename_i hvoter
      obtain ⟨hp, hl, hgoal⟩ := h.newPromise (.signed vote) (.pending []) (Or.inl ⟨rfl, trivial⟩)
      refine goes (hp.await ?_ hvoter) rfl
      have hfirst := hl.goals pm _ hf
      simp only [List.map_cons, List.map_nil, Then.goals]
      rw [hfirst, hgoal]
    · exact goes (h.unwind (_ :: b.thrown) b.halted) rfl
  | onFetchBlk blk =>
    unfold HotStuffBase.run
    dsimp only
    split
    · exact goes h rfl
    · rename_i pm hpm
      obtain ⟨hp, hl, hcalls⟩ := h.resolve pm true fun a ha => by
        rw [h.fetchWaiting blk pm hpm] at ha
        rw [← Option.some.inj ha]
        exact hf
      refine goes (hp.push fun g hg => ?_) rfl
      obtain hg | hg := List.mem_append.mp hg
      · exact hl.frameOk (calls_ok hcalls g hg)
      · rw [List.mem_singleton.mp hg]
        trivial
  | eraseFetch blk =>
    exact goes { h with fetchWaiting := fun x pm hx => h.fetchWaiting x pm (of_erase hx) } rfl
  | eraseDelivery blk =>
    exact goes { h with deliveryWaiting := fun x pm hx => h.deliveryWaiting x pm (of_erase hx) } rfl

end Pending

omit [DecidableEq H] in
/-- A handler waits for nothing, and so does the replica below it. -/
theorem idle_iff : b.idle = true ↔ b.halted = false ∧ b.frames = [] ∧ b.replica.idle = true := by
  simp [idle, and_assoc]

theorem fetch_turn (hidle : b.replica.idle = true) (data : BlockData H Sig) :
    Turn P b.replica (b.addBlk P data).replica := by
  refine ⟨.fetch b.replica.core.id b.replica.core.id data, rfl, ?_⟩
  rw [Replica.handle, if_pos hidle]
  rfl

namespace Pending

/-- A block from a message enters the storage. -/
theorem addBlk (h : b.Pending P) (data : BlockData H Sig) : (b.addBlk P data).Pending P := by
  have ha : b.replica.core.Advances P (fun _ => True) (b.addBlk P data).replica.core :=
    .addBlk h.wellFormed data
  have hl : b.Later P (b.addBlk P data) := ⟨ha, fun _ _ hg => hg, fun _ _ hd => hd⟩
  exact h.later hl rfl (hl.sound h.sound) (fun f hf => hl.frameOk (h.frames f hf))
    (fun _ _ => Or.inl) fun _ _ => Or.inl

theorem proposeHandler (h : b.Pending P) (hidle : b.replica.idle = true) {src : ReplicaID}
    (hsrc : b.peer src = true) (proposer : ReplicaID) (sHash : H) {slice : Slice H}
    (hslice : slice.decodable = true) (data : BlockData H Sig) :
    b.Goes P (b.proposeHandler P src proposer sHash slice data) := by
  have hp := h.addBlk data
  have hid : (b.addBlk P data).replica.core.id = b.replica.core.id :=
    (Core.addBlk_grows h.wellFormed data).1.quiet.id
  have hturns : Relation.ReflTransGen (Turn P) b.replica (b.addBlk P data).replica :=
    .single (fetch_turn hidle data)
  unfold HotStuffBase.proposeHandler
  dsimp only
  split
  · exact ⟨hp.unwind (_ :: b.thrown) b.halted, hturns⟩
  rename_i hproposer
  split
  · exact ⟨hp, hturns⟩
  rename_i heq
  have heq : src = proposer := by simpa using heq
  refine ⟨hp.asyncDeliverBlk fun b' pm hl hgoal => ⟨?_, hgoal⟩, ?_⟩
  · refine Then.Valid.mono hl.core ⟨?_, ?_, hslice⟩
    · simp only [peer, Bool.and_eq_true, decide_eq_true_eq] at hsrc
      rw [← heq, hid]
      exact hsrc.1
    · exact Nat.lt_of_not_le hproposer
  · rw [asyncDeliverBlk_replica]
    exact hturns

theorem voteHandler (h : b.Pending P) (vote : Vote H Sig) :
    b.Goes P (b.asyncDeliverBlk vote.blkHash (.awaitVote vote)) :=
  goes (h.asyncDeliverBlk fun _ _ _ hgoal => hgoal) (asyncDeliverBlk_replica b _ _)

/-- The blocks of a request are fetched, one after the other. -/
theorem fetchAll (hp : b.Pending P) (pms : List Nat) (done : List H)
    (hgoals : pms.map b.promises.goal = (done.map Awaited.fetched).map some) (hs : List H) :
    let r := hs.foldl (fun (b, pms) h => let (b, pm) := b.asyncFetchBlk h; (b, pms ++ [pm])) (b, pms)
    r.1.Pending P ∧ r.1.replica = b.replica ∧
      r.2.map r.1.promises.goal = ((done ++ hs).map Awaited.fetched).map some := by
  induction hs generalizing b pms done with
  | nil => exact ⟨hp, rfl, by rw [List.append_nil]; exact hgoals⟩
  | cons x hs ih =>
    obtain ⟨hp', hl, hgoal⟩ := hp.asyncFetchBlk x
    have hgoals' : (pms ++ [(b.asyncFetchBlk x).2]).map (b.asyncFetchBlk x).1.promises.goal =
        ((done ++ [x]).map Awaited.fetched).map some := by
      rw [List.map_append, hl.map_goal hgoals, List.map_append, List.map_append]
      simp only [List.map_cons, List.map_nil, hgoal]
    obtain ⟨hpending, hreplica, hall⟩ := ih hp' _ _ hgoals'
    rw [List.append_assoc] at hall
    exact ⟨hpending, hreplica.trans (asyncFetchBlk_replica b x), hall⟩

theorem reqBlkHandler (h : b.Pending P) (src : ReplicaID) (hashes : List H) :
    b.Goes P (b.reqBlkHandler src hashes) := by
  obtain ⟨hp, hreplica, hgoals⟩ := h.fetchAll [] [] rfl hashes
  unfold HotStuffBase.reqBlkHandler
  dsimp only
  split
  · exact goes (hp.unwind (_ :: _) _) hreplica
  · exact goes (hp.await hgoals trivial) hreplica

/-- The blocks of a message enter the storage. -/
theorem addBlks (h : b.Pending P) (hidle : b.replica.idle = true) (ds : List (BlockData H Sig)) :
    (ds.foldl (HotStuffBase.addBlk P) b).Pending P ∧
      Relation.ReflTransGen (Turn P) b.replica (ds.foldl (HotStuffBase.addBlk P) b).replica ∧
      b.replica.core.Advances P (fun _ => True) (ds.foldl (HotStuffBase.addBlk P) b).replica.core ∧
      ∀ data ∈ ds, ((ds.foldl (HotStuffBase.addBlk P) b).replica.core.storage
        (P.hashBlock data)).isSome := by
  induction ds generalizing b with
  | nil => exact ⟨h, .refl, .refl h.wellFormed, by simp⟩
  | cons d ds ih =>
    have ha : b.replica.core.Advances P (fun _ => True) (b.addBlk P d).replica.core :=
      .addBlk h.wellFormed d
    obtain ⟨hp', hturns, hadv, hstored⟩ := ih (h.addBlk d) hidle
    refine ⟨hp', .head (fetch_turn hidle d) hturns, ha.trans h.wellFormed hadv, fun data hdata => ?_⟩
    obtain rfl | hdata := List.mem_cons.mp hdata
    · exact hadv.stored _ (Core.addBlk_stored b.replica.core data)
    · exact hstored data hdata

theorem respBlkHandler (h : b.Pending P) (hidle : b.replica.idle = true) (blks : List (BlockData H Sig))
    (complete : Bool) : b.Goes P (b.respBlkHandler P blks complete) := by
  obtain ⟨hp, hturns, _, hstored⟩ := h.addBlks hidle blks
  unfold HotStuffBase.respBlkHandler
  dsimp only
  split
  · refine ⟨hp.push fun f hf => ?_, hturns⟩
    obtain ⟨data, hdata, rfl⟩ := List.mem_map.mp hf
    exact hstored data hdata
  · exact ⟨hp.unwind (_ :: _) _, hturns⟩

/-- The workers tell what they have found. -/
theorem verified (h : b.Pending P) {pm : Nat} (hv : b.verified P pm = some b') : b.Goes P b' := by
  have hresolve {g : Awaited H Sig} {v : Bool} (hgoal : b.promises.goal pm = some g)
      (hmet : g.Met P b.replica.core v) :
      b.Goes P (HotStuffBase.push { b with promises := (b.promises.resolve pm v).1 }
        (calls (b.promises.resolve pm v).2)) := by
    obtain ⟨hp, hl, hcalls⟩ := h.resolve pm v fun a ha => by
      rw [hgoal] at ha
      rw [← Option.some.inj ha]
      exact hmet
    exact goes (hp.push fun f hf => hl.frameOk (calls_ok hcalls f hf)) rfl
  unfold HotStuffBase.verified at hv
  dsimp only at hv
  split at hv
  · rename_i qc ks hpm
    obtain rfl := Option.some.inj hv
    apply hresolve (goal_of_getElem? hpm)
    intro htrue
    have hasync := (h.sound.pending _ (List.mem_of_getElem? hpm) ks rfl).1
    exact Or.inr (QuorumCert.verify_of_pool hasync htrue)
  · rename_i vote ks hpm
    obtain rfl := Option.some.inj hv
    apply hresolve (goal_of_getElem? hpm)
    intro htrue
    simpa [Vote.poolVerify] using htrue
  · cases hv

end Pending

end HotStuffBase
end LibHotStuff
