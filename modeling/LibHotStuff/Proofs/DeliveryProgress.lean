import LibHotStuff.Proofs.DeliveryWaiting

/-! Deliveries do not wait for each other in a circle. -/

namespace LibHotStuff

open Promises

variable {H Sig : Type} {P : Primitives H Sig} {rank : H → Nat}

/-- A block is hashed after its parents: none is among its own ancestors. -/
def Primitives.Ranked (P : Primitives H Sig) (rank : H → Nat) : Prop :=
  ∀ data : BlockData H Sig, ∀ p ∈ data.parentHashes, rank p < rank (P.hashBlock data)

namespace HotStuffBase

/-- No fetch is outstanding, and the workers have no certificate to verify. -/
def quiet (b : HotStuffBase H Sig) : Bool :=
  b.promises.all fun p =>
    match p.goal, p.state with
    | .fetched _, .pending _ => false
    | .certified _, .pending _ => false
    | _, _ => true

variable {b : HotStuffBase H Sig}

theorem ne_of_quiet (h : b.quiet = true) {pm : Nat} {g : Awaited H Sig}
    (hgoal : b.promises.goal pm = some g) (hpending : b.promises.isPending pm = true) :
    (∀ blk, g ≠ .fetched blk) ∧ ∀ qc, g ≠ .certified qc := by
  obtain ⟨g', ks, hat⟩ := isPending_iff.mp hpending
  have heq : g' = g := by
    rw [goal, hat] at hgoal
    exact Option.some.inj hgoal
  have hp := List.all_eq_true.mp h _ (List.mem_of_getElem? hat)
  subst heq
  constructor
  · rintro blk rfl
    cases hp
  · rintro qc rfl
    cases hp

variable [DecidableEq H]

omit [DecidableEq H] in
/-- When no handler runs and nothing comes from outside any more, no delivery waits: one that waited
would wait for the delivery of a parent, and that one for the delivery of a parent of it. -/
theorem Deliveries.complete (h : b.Deliveries P []) (hp : b.Pending P) (hquiet : b.quiet = true)
    (hrank : P.Ranked rank) (x : H) : b.blkDeliveryWaiting x = none := by
  induction hn : rank x using Nat.strong_induction_on generalizing x with
  | _ n ih =>
    cases hpm : b.blkDeliveryWaiting x with
    | none => rfl
    | some pm =>
      exfalso
      obtain ⟨q, hfetch, hheld⟩ | ⟨blk, ctx, idx, q, _, hdone, hheld, hwhat⟩ :=
        (h.waits hp).outstanding x pm hpm
      · exact (ne_of_quiet hquiet (hp.fetchWaiting x q hfetch) hheld.isPending).1 x rfl
      obtain hfetch | hcert | ⟨p, hmem, hparent⟩ := hwhat
      · exact (ne_of_quiet hquiet (hp.fetchWaiting _ q hfetch) hheld.isPending).1 _ rfl
      · exact (ne_of_quiet hquiet hcert hheld.isPending).2 _ rfl
      -- the parent comes earlier
      obtain ⟨a, ha, hdone⟩ := Option.map_eq_some_iff.mp hdone
      have hvalid := (hp.valid a (List.mem_of_getElem? ha)).1
      rw [hdone] at hvalid
      have hlt : rank p < n := by
        rw [← hn, ← hvalid.2.1]
        exact hrank blk.toBlockData p hmem
      rw [ih (rank p) hlt p rfl] at hparent
      cases hparent

/-- Every delivery comes to an end: in every run in which no certificate of a block fails, no
exception leaves a handler that still has to go on with a delivery, and no promise is rejected that
another delivery waits for, when no handler runs, all fetches have been answered and all certificates
verified, no entry is left in `blk_delivery_waiting`, and no promise of `async_deliver_blk` is
pending. -/
theorem deliveries_complete (hrank : P.Ranked rank) {dummy : QuorumCert H Sig}
    {replicas : List NetAddr} {listenAddr : NetAddr} {id : ReplicaID}
    (h : b.Runs P dummy replicas listenAddr id fun b e => b.deliveryTold P e = true)
    (hidle : b.idle = true) (hquiet : b.quiet = true) (x : H) :
    b.blkDeliveryWaiting x = none ∧
      ∀ pm, b.promises.goal pm = some (.delivered x) → b.promises.isPending pm = false := by
  obtain ⟨hp, hdeliveries⟩ := idle_deliveries h hidle
  have hnone := hdeliveries.complete hp hquiet hrank x
  refine ⟨hnone, fun pm hgoal => ?_⟩
  by_contra hpending
  have hentry := hdeliveries.deliveryKnown x pm hgoal (Bool.eq_true_of_not_eq_false hpending)
  rw [hnone] at hentry
  cases hentry

end HotStuffBase

namespace Concrete

theorem le_encode_of_mem {hashes : List Nat} {p : Nat} (h : p ∈ hashes) :
    p ≤ Encodable.encode hashes := by
  induction h with
  | head ps =>
    rw [Encodable.encode_list_cons, Encodable.encode_nat]
    exact Nat.le_succ_of_le (Nat.left_le_pair p _)
  | tail q _ ih =>
    rw [Encodable.encode_list_cons]
    exact Nat.le_succ_of_le (Nat.le_trans ih (Nat.right_le_pair _ _))

/-- In the chain, blocks have the numbers of their places. -/
theorem chainBlocks_ranked : (primitives chainBlocks []).Ranked fun h => h := by
  intro data p hp
  change p < tableHash chainBlocks encodeBlock data
  unfold tableHash
  split
  · rename_i i hi
    have hat := idxOf?_some hi
    have hlt : i < 5 := (List.getElem?_eq_some_iff.mp hat).1
    have hparent : data.parentHashes = [i] := by
      interval_cases i
      all_goals
        obtain rfl := Option.some.inj hat
        rfl
    rw [hparent] at hp
    rw [List.mem_singleton.mp hp]
    exact Nat.lt_succ_self i
  · have hle : Encodable.encode data.parentHashes ≤ encodeBlock data := by
      rw [encodeBlock, Encodable.encode_prod_val]
      exact Nat.left_le_pair _ _
    have hmem := le_encode_of_mem hp
    omega

set_option maxRecDepth 100000 in
theorem delivered_run :
    (Transition.runBy (HotStuffBase.step (primitives chainBlocks []))
      (fun b e => b.deliveryTold (primitives chainBlocks []) e = true)
      (HotStuffBase.init (primitives chainBlocks []) noCert [10, 11, 12, 13] 10 0)
      (proposed chainBlocks 1 ++ List.replicate 9 (.proceed []) ++
        List.replicate 3 (.runTask [] false) ++ proposed chainBlocks 2 ++
        List.replicate 6 (.proceed []) ++ .verified 7 :: List.replicate 2 (.proceed []) ++
        List.replicate 3 (.runTask [] false) ++ [.proceed []])).map
          (fun b => (b.core.delivered 2, b.idle, b.quiet)) = some (true, true, true) := by
  decide +kernel

/-- Two blocks of the chain are proposed and delivered, and nothing waits any more. -/
theorem deliveries_complete_chain : ∃ b : HotStuffBase Nat Signature,
    b.core.delivered 2 = true ∧ ∀ x, b.blkDeliveryWaiting x = none := by
  obtain ⟨b, hreach, hseen⟩ := Transition.runBy_map_reaches delivered_run
  obtain ⟨hdelivered, hrest⟩ := Prod.mk.inj hseen
  obtain ⟨hidle, hquiet⟩ := Prod.mk.inj hrest
  exact ⟨b, hdelivered, fun x =>
    (HotStuffBase.deliveries_complete chainBlocks_ranked hreach hidle hquiet x).1⟩

end Concrete
end LibHotStuff
