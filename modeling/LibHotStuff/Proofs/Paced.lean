import LibHotStuff.Model.Paced
import LibHotStuff.Proofs.SliceFlow

namespace LibHotStuff

section Logs

variable {H Sig : Type} [DecidableEq H] {P : Primitives H Sig} {D : Deployment}

namespace Replica

variable {nd nd' : Replica H Sig}

/-- The calls that a core has made stay. -/
theorem absorb_logs (ord : List H) (rest : List (Task H Sig)) (res : Res H Sig)
    (outs : List (Output H Sig)) :
    ∃ outs', (Replica.absorb { nd with log := nd.log ++ outs } ord rest res).log = nd.log ++ outs' := by
  refine ⟨outs ++ res.outs, ?_⟩
  rw [absorb_log, List.append_assoc]

theorem runTask_logs {ord : List H} {toSelf : Bool} (h : nd.runTask ord toSelf = some nd') :
    ∃ outs, nd'.log = nd.log ++ outs := by
  unfold runTask at h
  split at h
  · cases h
  · split at h <;> obtain rfl := Option.some.inj h <;> exact ⟨[], (List.append_nil _).symm⟩
  · obtain rfl := Option.some.inj h
    exact ⟨[], (List.append_nil _).symm⟩
  · obtain rfl := Option.some.inj h
    exact ⟨[], (List.append_nil _).symm⟩
  · split at h
    · obtain rfl := Option.some.inj h
      exact absorb_logs _ _ _ _
    · obtain rfl := Option.some.inj h
      exact ⟨_, rfl⟩
  · obtain rfl := Option.some.inj h
    exact ⟨_, rfl⟩
  · obtain rfl := Option.some.inj h
    exact ⟨[], (List.append_nil _).symm⟩

end Replica

variable [DecidableEq Sig] {s s' : Sys H Sig} {nd : Replica H Sig} {e : Event H Sig}

theorem Sys.step_handle (h : s.step P D e = some s') :
    ∃ nd, s.handle P D e = some nd ∧ s' = s.set e.at_ nd := by
  simp only [step, Option.ite_none_right_eq_some, Option.map_eq_some_iff] at h
  obtain ⟨_, nd, hnd, rfl⟩ := h
  exact ⟨nd, hnd, rfl⟩

theorem Sys.handle_log (h : s.handle P D e = some nd) :
    ∃ outs, nd.log = (s.node e.at_).log ++ outs := by
  cases e with
  | asyncQcFinish r blk =>
    simp only [handle, Option.ite_none_right_eq_some, Option.some.injEq] at h
    obtain ⟨_, rfl⟩ := h
    exact ⟨[], (List.append_nil _).symm⟩
  | fetch r src data =>
    simp only [handle, Option.ite_none_right_eq_some, Option.some.injEq] at h
    obtain ⟨_, rfl⟩ := h
    exact ⟨[], (List.append_nil _).symm⟩
  | receiveSlice r src hash slice =>
    simp only [handle, Option.ite_none_right_eq_some] at h
    obtain ⟨_, h⟩ := h
    split at h
    · obtain rfl := Option.some.inj h
      exact ⟨_, Replica.absorb_log _ _ _⟩
    · obtain rfl := Option.some.inj h
      exact ⟨[], (List.append_nil _).symm⟩
  | runTask r ord toSelf =>
    simp only [handle, Option.ite_none_left_eq_some] at h
    exact Replica.runTask_logs h.2
  | _ =>
    simp only [handle, Option.ite_none_right_eq_some, Option.some.injEq] at h
    obtain ⟨_, rfl⟩ := h
    exact ⟨_, Replica.absorb_log _ _ _⟩

end Logs

namespace Paced

variable {H Sig A : Type} [DecidableEq H] [DecidableEq Sig] {P : Primitives H Sig} {D : Deployment}
  {U : Upper H Sig A} {x x' x'' : Paced H Sig A} {e : Event H Sig} {a : A}

/-- The steps of the network that steps of such replicas are made of, when each meets `cond`. -/
abbrev Builds (P : Primitives H Sig) (D : Deployment)
    (cond : Sys H Sig × List (H × List UInt256) → Event H Sig → Prop) (x x' : Paced H Sig A) : Prop :=
  Transition.Reaches (Sys.stepBuilding P D) cond (x.sys, x.built) (x'.sys, x'.built)

variable {cond : Sys H Sig × List (H × List UInt256) → Event H Sig → Prop}

theorem coreStep_builds (hcond : cond (x.sys, x.built) e) (h : x.coreStep P D U e a = some x') :
    Builds P D cond x x' := by
  obtain ⟨⟨sys, built⟩, hstep, rfl⟩ := Option.map_eq_some_iff.mp h
  exact .single ⟨e, hcond, hstep⟩

theorem awaitQc_builds (r : ReplicaID) (blk : H) (waits : Bool)
    (hcond : cond (x.sys, x.built) (.asyncQcFinish r blk)) :
    Builds P D cond x (x.awaitQc P D r blk waits) := by
  unfold awaitQc
  split
  · cases hstep : x.sys.step P D (.asyncQcFinish r blk) with
    | none => exact .refl
    | some sys =>
      apply Relation.ReflTransGen.single
      refine ⟨.asyncQcFinish r blk, hcond, ?_⟩
      rw [Sys.stepBuilding, hstep]
      rfl
  · exact .refl

theorem awaitQc_base (x : Paced H Sig A) (r : ReplicaID) (blk : H) (waits : Bool) :
    (x.awaitQc P D r blk waits).base = x.base := by
  unfold awaitQc
  split <;> rfl

theorem awaitQc_log (x : Paced H Sig A) (r : ReplicaID) (blk : H) (waits : Bool) (r' : ReplicaID) :
    ((x.awaitQc P D r blk waits).sys.node r').log = (x.sys.node r').log := by
  unfold awaitQc
  split
  · cases hstep : x.sys.step P D (.asyncQcFinish r blk) with
    | none => rfl
    | some sys =>
      obtain ⟨nd, hnd, rfl⟩ := Sys.step_handle hstep
      simp only [Sys.handle, Option.ite_none_right_eq_some, Option.some.injEq] at hnd
      obtain ⟨_, rfl⟩ := hnd
      by_cases hr : r' = r
      · subst hr
        simp [Sys.set, Event.at_]
      · simp [Sys.set, Event.at_, hr]
  · rfl

/-- What the core tells does not break it; the calls that the core has made are known. -/
structure Keeps (U : Upper H Sig A) (I : List (Output H Sig) → A → Prop) : Prop where
  observe : ∀ log a o, I log a → I (log ++ [o]) (U.observe a o)
  count : ∀ log a voted, I log a → I log (U.count voted a)
  unwind : ∀ log a, I log a → I log (U.unwind a)

omit [DecidableEq H] [DecidableEq Sig] in
theorem Keeps.foldl {I : List (Output H Sig) → A → Prop} {log : List (Output H Sig)}
    (hk : Keeps U I) (ha : I log a) (outs : List (Output H Sig)) :
    I (log ++ outs) (outs.foldl U.observe a) := by
  induction outs generalizing log a with
  | nil => rwa [List.append_nil]
  | cons o outs ih =>
    rw [List.append_cons]
    exact ih (hk.observe log a o ha)

/-- What a step of a core does: the network makes its step, and only the replica of the event may
see of it. -/
theorem coreStep_inv (h : x.coreStep P D U e a = some x') :
    x.sys.step P D e = some x'.sys ∧ x'.built = (x.sys.builds P e).toList ++ x.built ∧
      (∀ r, r ≠ e.at_ → x'.base r = x.base r ∧ x'.sys.node r = x.sys.node r) ∧
      ∀ I, Keeps U I → I (x.sys.node e.at_).log a → I (x'.sys.node e.at_).log (x'.base e.at_) := by
  obtain ⟨⟨sys, built⟩, hstep, rfl⟩ := Option.map_eq_some_iff.mp h
  obtain ⟨sys', hsys, heq⟩ := Option.map_eq_some_iff.mp hstep
  obtain ⟨rfl, rfl⟩ := Prod.mk.inj heq
  obtain ⟨nd, hnd, rfl⟩ := Sys.step_handle hsys
  refine ⟨hsys, rfl, fun r hr => ⟨Function.update_of_ne hr _ _, Function.update_of_ne hr _ _⟩,
    fun I hk ha => ?_⟩
  obtain ⟨outs, houts⟩ := Sys.handle_log hnd
  have hfold := hk.foldl ha outs
  simp only [Sys.set, Function.update_self, houts, List.drop_left]
  have hcount := hk.count _ _ (fun blk => decide (nd.core.config.nmajority ≤
    (nd.core.voters blk).length)) hfold
  split
  · exact hk.unwind _ _ hcount
  · exact hcount

end Paced
end LibHotStuff
