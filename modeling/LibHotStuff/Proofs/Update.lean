import LibHotStuff.Model.CommitLoop
import LibHotStuff.Proofs.Commit

namespace LibHotStuff

open Chain

variable {H Sig : Type} [DecidableEq H] {P : Primitives H Sig}

/-- What holds of the core between two calls. -/
structure Core.WellFormed (P : Primitives H Sig) (c : Core H Sig) : Prop where
  dag : c.Dag P
  genesisDecided : c.decided P.genesisHash = true
  hqcDelivered : c.delivered c.hqc.1 = true
  lockDelivered : c.delivered c.bLock = true
  execDelivered : c.delivered c.bExec = true
  decidedDelivered : ∀ {h}, c.decided h = true → c.delivered h = true
  tailsDelivered : ∀ t ∈ c.tails, c.delivered t = true
  hqcCert : c.hqc.2.objHash = c.hqc.1
  selfQcHash : ∀ {h b qc}, c.storage h = some b → b.selfQc = some qc → qc.objHash = h
  futuresReturn : ∀ h e, c.futures h ≠ some (.error (.throw e))

/-- `nblk` completes a three-chain on `b`: its certificate is for a block whose parent and
grandparent are the blocks that the certificates below are for. -/
def Primitives.Completes (P : Primitives H Sig) (nblk b : H) : Prop :=
  ∃ b₁ b₂, P.justify nblk = b₂ ∧ P.parent b₂ = some b₁ ∧ P.justify b₂ = b₁ ∧
    P.parent b₁ = some b ∧ P.justify b₁ = b

/-- What `update` for `nblk` does before the commit: the certified block becomes `hqc.first`
when it is higher, and the block certified by that one the lock. -/
structure Core.Prepared (P : Primitives H Sig) (c : Core H Sig) (nblk : H) (c' : Core H Sig)
    (outs : List (Output H Sig)) : Prop where
  rest : c' = { c with hqc := c'.hqc, bLock := c'.bLock, futures := c'.futures }
  outs_eq : outs = [] ∨ outs = [.onHqcUpdate]
  hqc : c'.hqc = c.hqc ∧ outs = [] ∨
    outs = [.onHqcUpdate] ∧ c.height c.hqc.1 < c.height (P.justify nblk) ∧
      c'.hqc.1 = P.justify nblk ∧ c'.hqc.2.objHash = P.justify nblk
  bLock : c'.bLock = c.bLock ∨ c.delivered (P.justify nblk) = true ∧
    c.height c.bLock < c.height (P.justify (P.justify nblk)) ∧
      c'.bLock = P.justify (P.justify nblk)
  futures : c'.futures = c.futures ∨ ∃ input,
    c.sc.getBlock (P.justify (P.justify nblk)) = (0, input) ∧
      c.futures (P.justify (P.justify nblk)) = none ∧ c.delivered (P.justify nblk) = true ∧
      c'.futures = Function.update c.futures (P.justify (P.justify nblk))
        (some (asyncDecode P.leopard c.rse input))
  decodes : c'.futures = c.futures ∨ c.decided (P.justify (P.justify nblk)) = false
  hqc_ge : c' = c ∨ c.height (P.justify nblk) ≤ c.height c'.hqc.1

namespace Core

variable {c : Core H Sig} {nblk : H}

/-- `update` for `blk` has raised the lock as far as the block asks for. -/
def Raised (P : Primitives H Sig) (c : Core H Sig) (blk : H) : Prop :=
  c.delivered (P.justify blk) = true → c.decided (P.justify blk) = true ∨
    c.decided (P.justify (P.justify blk)) = true ∨
      c.height (P.justify (P.justify blk)) ≤ c.height c.bLock

/-- `async_decode` of the shards of the block does not come to an end. -/
def DecodeFails (P : Primitives H Sig) (c : Core H Sig) (blk : H) (f : Fault) : Prop :=
  ∃ input, c.sc.getBlock blk = (0, input) ∧ asyncDecode P.leopard c.rse input = .error f

omit [DecidableEq H] in
theorem DecodeFails.ne_throw {blk : H} {f : Fault} (h : c.DecodeFails P blk f) (e : Error) :
    f ≠ .throw e := by
  rintro rfl
  obtain ⟨input, _, hfail⟩ := h
  exact asyncDecode_ne_throw _ _ _ e hfail

/-- `update` for `nblk` goes as far as the decoding, and that fails. -/
structure UpdateFails (P : Primitives H Sig) (c : Core H Sig) (nblk : H) (f : Fault) : Prop where
  certified : c.delivered (P.justify nblk) = true
  undecided : c.decided (P.justify nblk) = false
  undecided₁ : c.decided (P.justify (P.justify nblk)) = false
  decode : c.DecodeFails P (P.justify (P.justify nblk)) f

/-- The steps of `updateLock` before the commit. -/
structure Locked (P : Primitives H Sig) (c : Core H Sig) (b₂ : H) (c' : Core H Sig) : Prop where
  rest : c' = { c with bLock := c'.bLock, futures := c'.futures }
  bLock : c'.bLock = c.bLock ∨ c.delivered b₂ = true ∧
    c.height c.bLock < c.height (P.justify b₂) ∧ c'.bLock = P.justify b₂
  futures : c'.futures = c.futures ∨ ∃ input, c.sc.getBlock (P.justify b₂) = (0, input) ∧
    c.futures (P.justify b₂) = none ∧ c.delivered b₂ = true ∧
      c'.futures = Function.update c.futures (P.justify b₂)
        (some (asyncDecode P.leopard c.rse input))
  decodes : c'.futures = c.futures ∨ c.decided (P.justify b₂) = false

theorem startDecode_cases (c : Core H Sig) (b : H) :
    c.startDecode P b = .ok c ∨
      (∃ input, c.sc.getBlock b = (0, input) ∧ c.futures b = none ∧ c.startDecode P b = .ok { c with
        futures := Function.update c.futures b (some (asyncDecode P.leopard c.rse input)) }) ∨
      ∃ f, c.DecodeFails P b f ∧ c.startDecode P b = .fail c f := by
  unfold startDecode
  split
  · rename_i input hget
    split
    · rename_i hnone
      exact Or.inr (Or.inl ⟨input, hget, hnone, rfl⟩)
    · exact Or.inl rfl
    · exact Or.inl rfl
    · rename_i f _ _ hfail
      exact Or.inr (Or.inr ⟨f, ⟨input, hget, hfail⟩, rfl⟩)
  · exact Or.inl rfl

theorem startDecode_frame (c : Core H Sig) (b : H) :
    ∃ futures, (c.startDecode P b).core = { c with futures := futures } := by
  obtain h | ⟨_, _, _, h⟩ | ⟨_, _, h⟩ := startDecode_cases (P := P) c b
  · exact ⟨c.futures, by rw [h]; rfl⟩
  · exact ⟨_, by rw [h]; rfl⟩
  · exact ⟨c.futures, by rw [h]; rfl⟩

theorem Locked.refl (c : Core H Sig) (b₂ : H) : c.Locked P b₂ c :=
  ⟨rfl, Or.inl rfl, Or.inl rfl, Or.inl rfl⟩

/-- Decoding starts and the lock moves up, or a decoding that has been started before fails. -/
theorem startDecode_locked {b₂ : H} (hd : c.delivered b₂ = true)
    (hdec : c.decided (P.justify b₂) = false) :
    (∃ c₁, c.startDecode P (P.justify b₂) = .ok c₁ ∧ c.Locked P b₂ (c₁.lock (P.justify b₂)) ∧
        c.height (P.justify b₂) ≤ c.height (c₁.lock (P.justify b₂)).bLock) ∨
      ∃ f, c.DecodeFails P (P.justify b₂) f ∧ c.startDecode P (P.justify b₂) = .fail c f := by
  have hlock (f : H → Option (Except Fault (List UInt256)))
      (hf : f = c.futures ∨ ∃ input, c.sc.getBlock (P.justify b₂) = (0, input) ∧
        c.futures (P.justify b₂) = none ∧ c.delivered b₂ = true ∧
          f = Function.update c.futures (P.justify b₂)
            (some (asyncDecode P.leopard c.rse input))) :
      c.Locked P b₂ (({ c with futures := f } : Core H Sig).lock (P.justify b₂)) ∧
        c.height (P.justify b₂) ≤
          c.height (({ c with futures := f } : Core H Sig).lock (P.justify b₂)).bLock := by
    unfold lock
    split
    · rename_i hlt
      exact ⟨⟨rfl, Or.inr ⟨hd, hlt, rfl⟩, hf, Or.inr hdec⟩, Nat.le_refl _⟩
    · rename_i hge
      exact ⟨⟨rfl, Or.inl rfl, hf, Or.inr hdec⟩, Nat.le_of_not_lt hge⟩
  obtain h | ⟨input, hget, hnone, h⟩ | hfail := startDecode_cases (P := P) c (P.justify b₂)
  · exact Or.inl ⟨c, h, hlock c.futures (Or.inl rfl)⟩
  · exact Or.inl ⟨_, h, hlock _ (Or.inr ⟨input, hget, hnone, hd, rfl⟩)⟩
  · exact Or.inr hfail

/-- `updateLock` ends after the lock, commits the block below a two-chain, or fails where it decodes
the shards of the lock's block again. -/
theorem updateLockBy_cases (k : Core H Sig → H → Res H Sig) (hc : c.Dag P)
    (hgen : c.decided P.genesisHash = true) {b₂ : H} (hb₂ : c.decided b₂ = false) :
    ∃ c', c.Locked P b₂ c' ∧
      ((c.delivered b₂ = true → c.decided (P.justify b₂) = true ∨
          c.height (P.justify b₂) ≤ c.height c'.bLock) ∧
        (c.updateLockBy P k b₂ = .ok c' ∨
          ∃ b, c.delivered b₂ = true ∧ P.parent b₂ = some (P.justify b₂) ∧
            P.parent (P.justify b₂) = some b ∧ P.justify (P.justify b₂) = b ∧
              c.decided (P.justify b₂) = false ∧ c.decided b = false ∧
                c.updateLockBy P k b₂ = k c' b) ∨
      ∃ f, c.delivered b₂ = true ∧ c.decided (P.justify b₂) = false ∧
        c.DecodeFails P (P.justify b₂) f ∧ c.updateLockBy P k b₂ = .fail c' f) := by
  have hne {h : H} (hd : c.decided h = false) : h ≠ P.genesisHash := by
    rintro rfl
    rw [hgen] at hd
    cases hd
  cases hd₂ : c.delivered b₂ with
  | false =>
    refine ⟨c, .refl c b₂, Or.inl ⟨nofun, Or.inl ?_⟩⟩
    rw [updateLockBy, (hc.not_delivered hd₂).1]
  | true =>
    cases hdec₁ : c.decided (P.justify b₂) with
    | true =>
      refine ⟨c, .refl c b₂, Or.inl ⟨fun _ => Or.inl rfl, Or.inl ?_⟩⟩
      simp [updateLockBy, hc.qcRef_eq hd₂, hdec₁]
    | false =>
      obtain ⟨c₁, hok, hlocked, hge⟩ | ⟨f, hfails, hfail⟩ :=
        startDecode_locked (P := P) hd₂ hdec₁
      swap
      · refine ⟨c, .refl c b₂, Or.inr ⟨f, rfl, rfl, hfails, ?_⟩⟩
        simp only [updateLockBy, hc.qcRef_eq hd₂, hdec₁]
        rw [hfail, Res.fail_bind]
        rfl
      generalize hc' : c₁.lock (P.justify b₂) = c' at hlocked hge
      have hst : c'.storage = c.storage := by
        have h := congrArg storage hlocked.rest
        exact h
      have hq (h : H) : c'.qcRef h = c.qcRef h := by rw [qcRef, qcRef, hst]
      have hp (h : H) : c'.parent0 h = c.parent0 h := by rw [parent0, parent0, hst]
      have hde (h : H) : c'.decided h = c.decided h := by rw [decided, decided, hst]
      refine ⟨c', hlocked, Or.inl ⟨fun _ => Or.inr hge, ?_⟩⟩
      simp only [updateLockBy, hc.qcRef_eq hd₂, hdec₁, hok, Res.ok_bind, hc', hq, hp, hde]
      cases hd₁ : c.delivered (P.justify b₂) with
      | false =>
        rw [(hc.not_delivered hd₁).1]
        exact Or.inl rfl
      | true =>
        rw [hc.qcRef_eq hd₁]
        cases hdec : c.decided (P.justify (P.justify b₂)) with
        | true => exact Or.inl (by simp [hdec])
        | false =>
          obtain ⟨p₂, hp₂, hp₂', _⟩ := hc.delivered_fields hd₂ (hne hb₂)
          obtain ⟨p₁, hp₁, hp₁', _⟩ := hc.delivered_fields hd₁ (hne hdec₁)
          simp only [hp₂', hp₁', hdec]
          by_cases h₂ : p₂ = P.justify b₂
          · by_cases h₁ : p₁ = P.justify (P.justify b₂)
            · refine Or.inr ⟨_, trivial, by rw [hp₂, h₂], by rw [hp₁, h₁], rfl, trivial, hdec, ?_⟩
              simp [h₂, h₁]
            · exact Or.inl (by simp [h₂, h₁])
          · exact Or.inl (by simp [h₂])

theorem Prepared.storage {c' : Core H Sig} {outs : List (Output H Sig)}
    (h : c.Prepared P nblk c' outs) : c'.storage = c.storage := by
  have hs := congrArg Core.storage h.rest
  exact hs

theorem Prepared.sameDag {c' : Core H Sig} {outs : List (Output H Sig)}
    (h : c.Prepared P nblk c' outs) : c.SameDag c' := by
  have hb := congrArg Core.b0 h.rest
  exact .of_storage hb h.storage

theorem Prepared.decided {c' : Core H Sig} {outs : List (Output H Sig)}
    (h : c.Prepared P nblk c' outs) (x : H) : c'.decided x = c.decided x := by
  rw [Core.decided, Core.decided, h.storage]

/-- What `update` does: it ends after the lock, goes on to commit, or fails where it decodes again. -/
theorem updateBy_cases (k : Core H Sig → H → Res H Sig) (hc : c.WellFormed P)
    (hd : c.delivered nblk = true) :
    ∃ c' outs, c.Prepared P nblk c' outs ∧
      (c'.Raised P nblk ∧
        (c.updateBy P k nblk = ⟨c', outs, [], none⟩ ∨
          ∃ b, P.Completes nblk b ∧ c.delivered (P.justify nblk) = true ∧
            c.decided (P.justify nblk) = false ∧ c.decided (P.justify (P.justify nblk)) = false ∧
            c.decided b = false ∧
              c.updateBy P k nblk = (⟨c', outs, [], none⟩ : Res H Sig).bind (k · b)) ∨
      ∃ f, c.UpdateFails P nblk f ∧ c.updateBy P k nblk = ⟨c', outs, [], some f⟩) := by
  obtain ⟨n, hn, _⟩ := stored_of_delivered hd
  have hq : n.qcRef = some (P.justify nblk) := by rw [← qcRef_of hn, hc.dag.qcRef_eq hd]
  cases hdec : c.decided (P.justify nblk) with
  | true =>
    refine ⟨c, [], ⟨rfl, Or.inl rfl, Or.inl ⟨rfl, rfl⟩, Or.inl rfl, Or.inl rfl, Or.inl rfl,
      Or.inl rfl⟩, Or.inl ⟨fun _ => Or.inl hdec, Or.inl ?_⟩⟩
    simp [updateBy, hn, hq, hdec, Res.ok]
  | false =>
    have hobj : n.qc.objHash = P.justify nblk := by
      have hne : nblk ≠ P.genesisHash := by
        rintro rfl
        rw [P.justify_genesis, hc.genesisDecided] at hdec
        cases hdec
      have := (hc.dag.linked hn hne (by rwa [delivered_of hn] at hd)).2.1
      rw [hq] at this
      exact (Option.some.inj this).symm
    have hhqc : ∃ hqc outs, c.updateHqc (P.justify nblk) n.qc = ⟨{ c with hqc := hqc }, outs, [], none⟩ ∧
        (outs = [] ∨ outs = [.onHqcUpdate]) ∧
        (hqc = c.hqc ∧ outs = [] ∨
          outs = [.onHqcUpdate] ∧ c.height c.hqc.1 < c.height (P.justify nblk) ∧
            hqc.1 = P.justify nblk ∧ hqc.2.objHash = P.justify nblk) ∧
        c.height (P.justify nblk) ≤ c.height hqc.1 := by
      unfold updateHqc
      split
      · rename_i hlt
        exact ⟨_, _, rfl, Or.inr rfl, Or.inr ⟨rfl, hlt, rfl, hobj⟩, Nat.le_refl _⟩
      · rename_i hge
        exact ⟨c.hqc, [], rfl, Or.inl rfl, Or.inl ⟨rfl, rfl⟩, Nat.le_of_not_lt hge⟩
    obtain ⟨hqc, outs, hup, houts, hcases, hge⟩ := hhqc
    have hsame : c.SameDag { c with hqc := hqc } := .of_storage rfl rfl
    obtain ⟨c', hlocked, hres⟩ := updateLockBy_cases k (hsame.dag hc.dag) hc.genesisDecided hdec
    have hrest : c' = { c with hqc := c'.hqc, bLock := c'.bLock, futures := c'.futures } := by
      have h := hlocked.rest
      have hh : c'.hqc = hqc := congrArg Core.hqc h
      rw [hh]
      exact h
    have hh : c'.hqc = hqc := congrArg Core.hqc hlocked.rest
    have hprep : c.Prepared P nblk c' outs := ⟨hrest, houts, by rwa [hh], hlocked.bLock,
      hlocked.futures, hlocked.decodes, Or.inr (by rwa [hh])⟩
    refine ⟨c', outs, hprep, ?_⟩
    have hupd : c.updateBy P k nblk =
        (c.updateHqc (P.justify nblk) n.qc).bind fun c => c.updateLockBy P k (P.justify nblk) := by
      simp [updateBy, hn, hq, hdec]
    rw [hupd, hup, Res.bind_none rfl]
    obtain ⟨hlock, hres⟩ | ⟨f, hdel, hdec₁, hfails, hres⟩ := hres
    · left
      refine ⟨fun h => Or.inr ?_, ?_⟩
      · rw [hprep.sameDag.delivered] at h
        rw [hprep.decided, hprep.sameDag.height, hprep.sameDag.height]
        exact hlock h
      rcases hres with hres | ⟨b, hdel, hp₂, hp₁, hj₁, hdec₁, hdecb, hres⟩
      · rw [hres]
        exact Or.inl (by simp [Res.ok])
      · rw [hres]
        exact Or.inr ⟨b, ⟨_, _, rfl, hp₂, rfl, hp₁, hj₁⟩, hdel, rfl, hdec₁, hdecb,
          by rw [Res.bind_none rfl]⟩
    · rw [hres]
      exact Or.inr ⟨f, ⟨hdel, hdec, hdec₁, hfails⟩, by simp [Res.fail]⟩

/-- `update` is the case with the end that it has. -/
theorem update_eq_by (c : Core H Sig) (nblk : H) : c.update P nblk = c.updateBy P commit nblk := rfl

theorem update_cases (hc : c.WellFormed P) (hd : c.delivered nblk = true) :
    ∃ c' outs, c.Prepared P nblk c' outs ∧
      (c'.Raised P nblk ∧
        (c.update P nblk = ⟨c', outs, [], none⟩ ∨
          ∃ b, P.Completes nblk b ∧ c.delivered (P.justify nblk) = true ∧
            c.decided (P.justify nblk) = false ∧ c.decided (P.justify (P.justify nblk)) = false ∧
            c.decided b = false ∧
              c.update P nblk = (⟨c', outs, [], none⟩ : Res H Sig).bind (·.commit b)) ∨
      ∃ f, c.UpdateFails P nblk f ∧ c.update P nblk = ⟨c', outs, [], some f⟩) := by
  rw [update_eq_by]
  exact updateBy_cases commit hc hd

theorem Prepared.wellFormed {c' : Core H Sig} {outs : List (Output H Sig)}
    (h : c.Prepared P nblk c' outs) (hc : c.WellFormed P) : c'.WellFormed P where
  dag := h.sameDag.dag hc.dag
  genesisDecided := by rw [h.decided, hc.genesisDecided]
  hqcDelivered := by
    rw [h.sameDag.delivered]
    rcases h.hqc with ⟨heq, _⟩ | ⟨_, hlt, heq, _⟩
    · rw [heq, hc.hqcDelivered]
    · rw [heq]
      exact hc.dag.delivered_of_height (by omega)
  lockDelivered := by
    rw [h.sameDag.delivered]
    rcases h.bLock with heq | ⟨_, hlt, heq⟩
    · rw [heq, hc.lockDelivered]
    · rw [heq]
      exact hc.dag.delivered_of_height (by omega)
  execDelivered := by
    have hx := congrArg Core.bExec h.rest
    rw [h.sameDag.delivered, hx, hc.execDelivered]
  decidedDelivered hx := by
    rw [h.decided] at hx
    rw [h.sameDag.delivered, hc.decidedDelivered hx]
  tailsDelivered t ht := by
    have htl := congrArg Core.tails h.rest
    rw [htl] at ht
    rw [h.sameDag.delivered, hc.tailsDelivered t ht]
  hqcCert := by
    rcases h.hqc with ⟨heq, _⟩ | ⟨_, _, heq, hobj⟩
    · rw [heq, hc.hqcCert]
    · rw [heq, hobj]
  selfQcHash hb := by
    rw [h.storage] at hb
    exact hc.selfQcHash hb
  futuresReturn x e := by
    rcases h.futures with heq | ⟨input, _, _, _, heq⟩
    · rw [heq]
      exact hc.futuresReturn x e
    · rw [heq]
      intro hx
      by_cases hxb : x = P.justify (P.justify nblk)
      · subst hxb
        rw [Function.update_self] at hx
        exact asyncDecode_ne_throw _ _ _ e (Option.some.inj hx)
      · rw [Function.update_of_ne hxb] at hx
        exact hc.futuresReturn x e hx

omit [DecidableEq H] in
/-- A commit loop that has gone through delivered blocks. -/
theorem Sweeps.wellFormed {c' : Core H Sig} {done : List H} (h : c.Sweeps c' done)
    (hc : c.WellFormed P) (hdone : ∀ b ∈ done, c.delivered b = true) : c'.WellFormed P where
  dag := h.sameDag.dag hc.dag
  genesisDecided := (h.decided _).mpr (Or.inl hc.genesisDecided)
  hqcDelivered := by rw [h.sameDag.delivered, h.same.hqc, hc.hqcDelivered]
  lockDelivered := by rw [h.sameDag.delivered, h.same.bLock, hc.lockDelivered]
  execDelivered := by rw [h.sameDag.delivered, h.same.bExec, hc.execDelivered]
  decidedDelivered hx := by
    rw [h.sameDag.delivered]
    rcases (h.decided _).mp hx with hx | ⟨hx, _⟩
    · exact hc.decidedDelivered hx
    · exact hdone _ hx
  tailsDelivered t ht := by
    rw [h.same.tails] at ht
    rw [h.sameDag.delivered, hc.tailsDelivered t ht]
  hqcCert := by rw [h.same.hqc, hc.hqcCert]
  selfQcHash {x b qc} hb hqc := by
    have hv := h.votes x
    rw [hb] at hv
    obtain ⟨b', hb', he⟩ := Option.map_eq_some_iff.mp hv.symm
    rw [Prod.mk.injEq] at he
    exact hc.selfQcHash hb' (by rw [he.1, hqc])
  futuresReturn x e := by
    rcases h.futures x with heq | ⟨_, heq⟩
    · rw [heq]
      exact hc.futuresReturn x e
    · rw [heq]
      simp

omit [DecidableEq H] in
/-- A commit that has gone through part of a queue of delivered blocks. -/
theorem Committed.wellFormed {queue done : List H} {r : Res H Sig}
    (h : c.Committed queue r done) (hc : c.WellFormed P)
    (hq : ∀ b ∈ queue, c.delivered b = true) : r.core.WellFormed P :=
  h.sweeps.wellFormed hc fun b hb => hq b (h.queueDone.subset hb)

/-- The walk of the commit reaches `b_exec`, or the commit throws before its first write. -/
theorem commit_cases (hc : c.WellFormed P) {b : H} (hb : c.delivered b = true) :
    ∃ e, up P.parent (c.height b - c.height c.bExec) b = some e ∧
      (e ≠ c.bExec ∧ c.commit b = .fail c (.throw .safetyBreached) ∨
        e = c.bExec ∧ c.commit b =
          (c.commitAll (path P.parent (c.height b - c.height c.bExec) b).reverse).bind
            fun c => .ok { c with bExec := b }) := by
  obtain ⟨e, hwalk, hup⟩ := hc.dag.walkDown_eq hb (c.height c.bExec) (Nat.lt_succ_self _)
  refine ⟨e, hup, ?_⟩
  unfold commit
  rw [hwalk]
  by_cases he : e = c.bExec
  · exact Or.inr ⟨he, by simp [he]⟩
  · exact Or.inl ⟨he, by simp [he]⟩

end Core
end LibHotStuff
