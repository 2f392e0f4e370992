import Downline.Program

/-! Running programs over a store: how a run composes, and which calls a program can make. A condition on
calls that a program respects for every answer carries over to every state that a run leaves behind. -/

namespace Downline

namespace Prog

variable {σ α β : Type} {S : Store σ}

/-! ### Runs -/

@[simp]
theorem run_pure (a : α) (s : σ) : (pure a : Prog α).run S s = (.ok a, s) := rfl

theorem run_ask_ok {c : Call} {next : Except StoreError c.Answer → Prog α} {s : σ} {a : c.Answer}
    (h : (S.call c s).1 = .ok a) :
    (ask c next).run S s = (next (.ok a)).run S (S.call c s).2 := by
  rw [run]
  split <;> simp_all

theorem run_ask_error {c : Call} {next : Except StoreError c.Answer → Prog α} {s : σ}
    {e : StoreError} (h : (S.call c s).1 = .error (.error e)) :
    (ask c next).run S s = (next (.error e)).run S (S.call c s).2 := by
  rw [run]
  split <;> simp_all

/-- A run of one program after another is a run of the first and then of the second. -/
theorem run_bind_ok {p : Prog α} {f : α → Prog β} {s s' : σ} {a : α}
    (h : p.run S s = (.ok a, s')) : (p >>= f).run S s = (f a).run S s' := by
  induction p generalizing s with
  | done b =>
    cases h
    rfl
  | abort reason => cases h
  | ask c next ih =>
    -- The second program stands behind every answer of the first.
    have hb : (ask c next >>= f) = ask c fun r => next r >>= f := rfl
    rw [hb, run]
    rw [run] at h
    split at h
    next a' s₁ hc => exact ih _ h
    next e s₁ hc => exact ih _ h
    next reason s₁ hc => cases h

theorem run_request_ok {c : Call} {f : Except StoreError c.Answer → Prog β} {s : σ} {a : c.Answer}
    (h : (S.call c s).1 = .ok a) :
    (request c >>= f).run S s = (f (.ok a)).run S (S.call c s).2 :=
  run_ask_ok h

theorem run_request_error {c : Call} {f : Except StoreError c.Answer → Prog β} {s : σ}
    {e : StoreError} (h : (S.call c s).1 = .error (.error e)) :
    (request c >>= f).run S s = (f (.error e)).run S (S.call c s).2 :=
  run_ask_error h

/-- What a run of one program after another leaves behind, from what either of them does. -/
theorem snd_run_bind {I : σ → Prop} {p : Prog α} {f : α → Prog β} {s : σ} (hp : I (p.run S s).2)
    (hf : ∀ a, (p.run S s).1 = .ok a → I ((f a).run S (p.run S s).2).2) :
    I ((p >>= f).run S s).2 := by
  induction p generalizing s with
  | done a => exact hf a rfl
  | abort reason => exact hp
  | ask c next ih =>
    have hb : (ask c next >>= f) = ask c fun r => next r >>= f := rfl
    rw [hb]
    rw [run] at hp hf ⊢
    split at hp
    next a s' hc =>
      rw [hc] at hf
      exact ih _ hp hf
    next e s' hc =>
      rw [hc] at hf
      exact ih _ hp hf
    next reason s' hc => exact hp

/-- What a program leaves behind that goes on with the answer to a call. -/
theorem snd_run_request {I : σ → Prop} {c : Call} {f : Except StoreError c.Answer → Prog β} {s : σ}
    (hs : I (S.call c s).2)
    (hok : ∀ a, (S.call c s).1 = .ok a → I ((f (.ok a)).run S (S.call c s).2).2)
    (herror : ∀ e, (S.call c s).1 = .error (.error e) →
      I ((f (.error e)).run S (S.call c s).2).2) :
    I ((request c >>= f).run S s).2 := by
  have hb : (request c >>= f) = ask c f := rfl
  rw [hb, run]
  split
  next a s' hc =>
    rw [hc] at hok
    exact hok a rfl
  next e s' hc =>
    rw [hc] at herror
    exact herror e rfl
  next reason s' hc =>
    rw [hc] at hs
    exact hs

/-! ### The calls of a program -/

/-- Whatever the answers are, every call that the program makes meets the condition. -/
inductive Asks (P : Call → Prop) : Prog α → Prop where
  | done (a : α) : Asks P (done a)
  | abort (reason : Panic) : Asks P (abort reason)
  | ask {c : Call} {next : Except StoreError c.Answer → Prog α} (hc : P c)
      (hnext : ∀ r, Asks P (next r)) : Asks P (ask c next)

namespace Asks

variable {P : Call → Prop}

theorem pure (a : α) : Asks P (Pure.pure a : Prog α) := .done a

theorem request {c : Call} (hc : P c) : Asks P (request c) := .ask hc fun r => .done r

theorem bind {p : Prog α} {f : α → Prog β} (hp : Asks P p) (hf : ∀ a, Asks P (f a)) :
    Asks P (p >>= f) := by
  induction hp with
  | done a => exact hf a
  | abort reason => exact .abort reason
  | ask hc _ ih => exact .ask hc ih

end Asks

end Prog

/-- Calls that meet the condition keep the invariant when they are entered and when they are carried out. -/
structure Store.Keeps {σ : Type} (S : Store σ) (P : Call → Prop) (I : σ → Prop) : Prop where
  enter : ∀ {c s}, P c → I s → I (S.enter c s).2
  finish : ∀ {c t s}, P c → I s → I (S.finish c t s).2

namespace Store.Keeps

variable {σ α : Type} {S : Store σ} {P : Call → Prop} {I : σ → Prop}

theorem call (hk : S.Keeps P I) {c : Call} {s : σ} (hc : P c) (hs : I s) : I (S.call c s).2 := by
  have he := hk.enter hc hs
  unfold Store.call
  split
  next f s' h => rw [h] at he; exact he
  next t s' h => rw [h] at he; exact hk.finish hc he

/-- A program whose calls all meet the condition keeps the invariant. -/
theorem run (hk : S.Keeps P I) {p : Prog α} (hp : p.Asks P) {s : σ} (hs : I s) :
    I (p.run S s).2 := by
  induction hp generalizing s with
  | done a => exact hs
  | abort reason => exact hs
  | ask hc _ ih =>
    have hs' := hk.call hc hs
    rw [Prog.run]
    split
    next h => rw [h] at hs'; exact ih _ hs'
    next h => rw [h] at hs'; exact ih _ hs'
    next h => rw [h] at hs'; exact hs'

end Store.Keeps

end Downline
