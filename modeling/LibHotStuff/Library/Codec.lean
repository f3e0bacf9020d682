import Mathlib

/-! Readers of a byte stream, and what they give on the bytes that were written. -/

namespace LibHotStuff.Codec

variable {ε α β : Type}

/-- Takes bytes off the front of a stream. -/
abbrev Reader (ε α : Type) := StateT (List UInt8) (Except ε) α

/-- Reading `bs` gives `x` and leaves the bytes after it alone. -/
def Reads (p : Reader ε α) (bs : List UInt8) (x : α) : Prop :=
  ∀ rest, p (bs ++ rest) = .ok (x, rest)

theorem Reads.pure (x : α) : Reads (pure x : Reader ε α) [] x := fun _ => rfl

theorem Reads.bind {p : Reader ε α} {f : α → Reader ε β} {bs cs : List UInt8} {x : α} {y : β}
    (hp : Reads p bs x) (hf : Reads (f x) cs y) : Reads (p >>= f) (bs ++ cs) y := by
  intro rest
  have hfirst := hp (cs ++ rest)
  rw [List.append_assoc]
  simp only [StateT.bind, hfirst, Bind.bind, Except.bind]
  exact hf rest

/-- The last part of a stream has been read. -/
theorem Reads.last {p : Reader ε α} {f : α → Reader ε β} {bs : List UInt8} {x : α} {y : β}
    (hp : Reads p bs x) (hf : Reads (f x) [] y) : Reads (p >>= f) bs y := by
  have h := hp.bind hf
  rwa [List.append_nil] at h

theorem Reads.map {p : Reader ε α} {bs : List UInt8} {x : α} (hp : Reads p bs x) (f : α → β) :
    Reads (p >>= fun x => Pure.pure (f x)) bs (f x) :=
  Reads.last (f := fun x => Pure.pure (f x)) hp (Reads.pure (f x))

/-- A step that succeeds without reading. -/
theorem Reads.lift {e : Except ε α} {x : α} (h : e = .ok x) : Reads (liftM e : Reader ε α) [] x := by
  intro rest
  rw [h]
  rfl

/-- Takes the first `n` bytes off, or ends with `e`. -/
def take (e : ε) (n : Nat) : Reader ε (List UInt8) := fun bs =>
  if n ≤ bs.length then .ok (bs.take n, bs.drop n) else .error e

theorem take_reads (e : ε) {bs : List UInt8} {n : Nat} (h : bs.length = n) :
    Reads (take e n) bs bs := by
  subst h
  intro rest
  simp [take]

/-- Reads `n` items. -/
def times (p : Reader ε α) : Nat → Reader ε (List α)
  | 0 => pure []
  | n + 1 => do
    let x ← p
    let xs ← times p n
    return x :: xs

theorem times_reads {p : Reader ε α} {enc : α → List UInt8} {xs : List α}
    (h : ∀ x ∈ xs, Reads p (enc x) x) : Reads (times p xs.length) (xs.flatMap enc) xs := by
  induction xs with
  | nil => exact Reads.pure []
  | cons x xs ih =>
    have hrest := ih fun y hy => h y (List.mem_cons_of_mem x hy)
    exact (h x List.mem_cons_self).bind (hrest.map (x :: ·))

/-- The `n` low bytes of a number, the lowest one first. -/
def leBytes : Nat → Nat → List UInt8
  | 0, _ => []
  | n + 1, v => UInt8.ofNat (v % 256) :: leBytes n (v / 256)

def leValue : List UInt8 → Nat
  | [] => 0
  | b :: bs => b.toNat + 256 * leValue bs

theorem leBytes_length (n v : Nat) : (leBytes n v).length = n := by
  induction n generalizing v with
  | zero => rfl
  | succ n ih => rw [leBytes, List.length_cons, ih]

theorem leValue_leBytes {n v : Nat} (h : v < 256 ^ n) : leValue (leBytes n v) = v := by
  induction n generalizing v with
  | zero =>
    rw [pow_zero] at h
    rw [leBytes, leValue]
    omega
  | succ n ih =>
    have hdiv : v / 256 < 256 ^ n := by
      apply Nat.div_lt_of_lt_mul
      rwa [pow_succ, mul_comm] at h
    have hbyte : (UInt8.ofNat (v % 256)).toNat = v % 256 := by simp
    rw [leBytes, leValue, ih hdiv, hbyte]
    omega

theorem leValue_lt (bs : List UInt8) : leValue bs < 256 ^ bs.length := by
  induction bs with
  | nil => simp [leValue]
  | cons b bs ih =>
    have hb : b.toNat < 256 := b.toNat_lt
    rw [leValue, List.length_cons, pow_succ]
    omega

/-- Reads an unsigned number of `n` bytes. -/
def uint (e : ε) (n : Nat) : Reader ε Nat := do
  let bs ← take e n
  return leValue bs

theorem uint_reads (e : ε) {n v : Nat} (h : v < 256 ^ n) : Reads (uint e n) (leBytes n v) v := by
  have hread := (take_reads e (leBytes_length n v)).map leValue
  rwa [leValue_leBytes h] at hread

/-- What a reader ends with when it does not succeed satisfies `ok`. -/
def Fails (ok : ε → Prop) (p : Reader ε α) : Prop := ∀ bs e, p bs = .error e → ok e

/-- One part of a reader has failed, on what the part before it has left. -/
theorem bind_error {p : Reader ε α} {f : α → Reader ε β} {bs : List UInt8} {e : ε}
    (h : (p >>= f) bs = .error e) :
    p bs = .error e ∨ ∃ x rest, p bs = .ok (x, rest) ∧ f x rest = .error e := by
  simp only [Bind.bind, StateT.bind, Except.bind] at h
  cases hp : p bs with
  | error e' =>
    rw [hp] at h
    rw [Except.error.inj h]
    exact Or.inl rfl
  | ok r =>
    rw [hp] at h
    exact Or.inr ⟨r.1, r.2, rfl, h⟩

/-- What a reader in two parts has read. -/
theorem bind_ok {p : Reader ε α} {f : α → Reader ε β} {bs rest : List UInt8} {y : β}
    (h : (p >>= f) bs = .ok (y, rest)) : ∃ x mid, p bs = .ok (x, mid) ∧ f x mid = .ok (y, rest) := by
  simp only [Bind.bind, StateT.bind, Except.bind] at h
  split at h
  · cases h
  · rename_i r hp
    exact ⟨r.1, r.2, hp, h⟩

theorem take_length {e : ε} {n : Nat} {bs x rest : List UInt8} (h : take e n bs = .ok (x, rest)) :
    x.length = n := by
  unfold take at h
  split at h
  · rename_i hle
    simp only [Except.ok.injEq, Prod.mk.injEq] at h
    rw [← h.1, List.length_take, Nat.min_eq_left hle]
  · cases h

theorem take_rest {e : ε} {n : Nat} {bs x rest : List UInt8} (h : take e n bs = .ok (x, rest)) :
    rest = bs.drop n := by
  unfold take at h
  split at h
  · simp only [Except.ok.injEq, Prod.mk.injEq] at h
    exact h.2.symm
  · cases h

namespace Fails

variable {ok : ε → Prop}

theorem pure (x : α) : Fails ok (pure x : Reader ε α) := fun _ _ h => nomatch h

theorem bind {p : Reader ε α} {f : α → Reader ε β} (hp : Fails ok p) (hf : ∀ x, Fails ok (f x)) :
    Fails ok (p >>= f) := by
  intro bs e h
  obtain h | ⟨x, rest, _, h⟩ := bind_error h
  · exact hp bs e h
  · exact hf x rest e h

theorem take {e : ε} (h : ok e) (n : Nat) : Fails ok (take e n) := by
  intro bs e' he
  unfold Codec.take at he
  split at he
  · cases he
  · rw [← Except.error.inj he]
    exact h

theorem uint {e : ε} (h : ok e) (n : Nat) : Fails ok (uint e n) := (take h n).bind fun _ => pure _

theorem times {p : Reader ε α} (hp : Fails ok p) (n : Nat) : Fails ok (times p n) := by
  induction n with
  | zero => exact pure []
  | succ n ih => exact hp.bind fun x => ih.bind fun xs => pure (x :: xs)

theorem lift {e : Except ε α} (h : ∀ f, e = .error f → ok f) : Fails ok (liftM e : Reader ε α) := by
  intro bs f hf
  cases e with
  | error f' =>
    have heq : f' = f := Except.error.inj hf
    rw [← heq]
    exact h f' rfl
  | ok x => cases hf

end Fails

/-- A list in chunks of `k`, joined and cut again. -/
theorem chunks_flatten {k : Nat} {xs : List (List α)} (h : ∀ x ∈ xs, x.length = k) :
    (List.range xs.length).map (fun i => (xs.flatten.drop (i * k)).take k) = xs := by
  induction xs with
  | nil => rfl
  | cons x xs ih =>
    have hx : x.length = k := h x List.mem_cons_self
    have hrest := ih fun y hy => h y (List.mem_cons_of_mem x hy)
    rw [List.length_cons, List.range_succ_eq_map, List.map_cons, List.map_map]
    congr 1
    · rw [List.flatten_cons, Nat.zero_mul, List.drop_zero, List.take_append_of_le_length hx.ge,
        List.take_of_length_le hx.le]
    · refine Eq.trans (List.map_congr_left fun i _ => ?_) hrest
      have hdrop : (i + 1) * k = x.length + i * k := by
        rw [hx]
        ring
      simp only [Function.comp_apply, Nat.succ_eq_add_one, List.flatten_cons, hdrop,
        List.drop_append]
      rw [List.drop_eq_nil_of_le (Nat.le_add_right _ _), List.nil_append, Nat.add_sub_cancel_left]

end LibHotStuff.Codec
