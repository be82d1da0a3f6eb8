import Mathlib.Data.List.Basic

/-!
# Programs that may crash

A program makes calls on a state, and may raise.  Its outcome has next to the value and the last state the states after
every call: where it crashes the state is one of these, or the first one.

* `Meets` — what holds when a program returns, when it raises, and wherever it crashes;
* `Meets.call_ok`, `Meets.call_error`, `Meets.bind`, `Meets.tryCatch` — the rules for the parts of a program.
-/

namespace AisServer.Lib

variable {σ ε α β : Type}

structure Outcome (σ ε α : Type) where
  value : Except ε α
  state : σ
  /-- The states after the calls. -/
  passed : List σ

def Prog (σ ε α : Type) := σ → Outcome σ ε α

namespace Prog

/-- A call of the system. -/
def call (f : σ → Except ε α × σ) : Prog σ ε α := fun s => ⟨(f s).1, (f s).2, [(f s).2]⟩

instance : Monad (Prog σ ε) where
  pure a := fun s => ⟨.ok a, s, []⟩
  bind p f := fun s =>
    match (p s).value with
    | .error e => ⟨.error e, (p s).state, (p s).passed⟩
    | .ok a => ⟨(f a (p s).state).value, (f a (p s).state).state, (p s).passed ++ (f a (p s).state).passed⟩

instance : MonadExceptOf ε (Prog σ ε) where
  throw e := fun s => ⟨.error e, s, []⟩
  tryCatch p handler := fun s =>
    match (p s).value with
    | .ok a => ⟨.ok a, (p s).state, (p s).passed⟩
    | .error e =>
      ⟨(handler e (p s).state).value, (handler e (p s).state).state, (p s).passed ++ (handler e (p s).state).passed⟩

/-- A value that was computed without a call. -/
def lift (x : Except ε α) : Prog σ ε α :=
  match x with
  | .ok a => pure a
  | .error e => throw e

/-- From the state `s` the program ends in `ok` or in `err`, and passes through states in `crash`. -/
structure Meets (p : Prog σ ε α) (s : σ) (ok : α → σ → Prop) (err : ε → σ → Prop) (crash : σ → Prop) : Prop where
  ok : ∀ a, (p s).value = .ok a → ok a (p s).state
  err : ∀ e, (p s).value = .error e → err e (p s).state
  crash : ∀ t ∈ (p s).passed, crash t

namespace Meets

variable {p : Prog σ ε α} {s t : σ} {a : α} {e : ε} {P P' : α → σ → Prop} {E E' : ε → σ → Prop}
  {C C' : σ → Prop} {Q : β → σ → Prop}

theorem pure (h : P a s) : Meets (Pure.pure a : Prog σ ε α) s P E C where
  ok a' ha' := by
    cases ha'
    exact h
  err e he := by cases he
  crash t ht := by cases ht

theorem throw (h : E e s) : Meets (throw e : Prog σ ε α) s P E C where
  ok a ha := by cases ha
  err e' he' := by
    cases he'
    exact h
  crash t ht := by cases ht

theorem call {f : σ → Except ε α × σ} (hok : ∀ a, (f s).1 = .ok a → P a (f s).2)
    (herr : ∀ e, (f s).1 = .error e → E e (f s).2) (hcrash : C (f s).2) :
    Meets (Prog.call f) s P E C where
  ok := hok
  err := herr
  crash t ht := by
    obtain rfl := List.mem_singleton.1 ht
    exact hcrash

/-- A call that returns here. -/
theorem call_ok {f : σ → Except ε α × σ} (h : f s = (.ok a, t)) (hok : P a t) (hcrash : C t) :
    Meets (Prog.call f) s P E C := by
  refine call (fun a' ha' => ?_) (fun e he => ?_) (by rwa [h])
  · rw [h] at ha' ⊢
    cases ha'
    exact hok
  · rw [h] at he
    cases he

/-- A call that raises here. -/
theorem call_error {f : σ → Except ε α × σ} (h : f s = (.error e, t)) (herr : E e t) (hcrash : C t) :
    Meets (Prog.call f) s P E C := by
  refine call (fun a ha => ?_) (fun e' he' => ?_) (by rwa [h])
  · rw [h] at ha
    cases ha
  · rw [h] at he' ⊢
    cases he'
    exact herr

theorem mono (h : Meets p s P E C) (hok : ∀ a t, P a t → P' a t) (herr : ∀ e t, E e t → E' e t)
    (hcrash : ∀ t, C t → C' t) : Meets p s P' E' C' where
  ok a ha := hok a _ (h.ok a ha)
  err e he := herr e _ (h.err e he)
  crash t ht := hcrash t (h.crash t ht)

theorem and (h : Meets p s P E C) (h' : Meets p s P' E' C') :
    Meets p s (fun a t => P a t ∧ P' a t) (fun e t => E e t ∧ E' e t) (fun t => C t ∧ C' t) where
  ok a ha := ⟨h.ok a ha, h'.ok a ha⟩
  err e he := ⟨h.err e he, h'.err e he⟩
  crash t ht := ⟨h.crash t ht, h'.crash t ht⟩

/-- **Sequences.** -/
theorem bind {f : α → Prog σ ε β} (h : Meets p s P E C) (hf : ∀ a t, P a t → Meets (f a) t Q E C) :
    Meets (p >>= f) s Q E C := by
  rcases hv : (p s).value with e | a
  · have hbind : (p >>= f) s = ⟨.error e, (p s).state, (p s).passed⟩ := by
      simp only [Bind.bind, hv]
    refine ⟨fun b hb => ?_, fun e' he' => ?_, fun t ht => ?_⟩
    · rw [hbind] at hb
      cases hb
    · rw [hbind] at he' ⊢
      cases he'
      exact h.err e hv
    · rw [hbind] at ht
      exact h.crash t ht
  · have hbind : (p >>= f) s = ⟨(f a (p s).state).value, (f a (p s).state).state,
        (p s).passed ++ (f a (p s).state).passed⟩ := by
      simp only [Bind.bind, hv]
    have hm := hf a _ (h.ok a hv)
    refine ⟨fun b hb => ?_, fun e he => ?_, fun t ht => ?_⟩
    · rw [hbind] at hb ⊢
      exact hm.ok b hb
    · rw [hbind] at he ⊢
      exact hm.err e he
    · rw [hbind] at ht
      rcases List.mem_append.1 ht with ht | ht
      · exact h.crash t ht
      · exact hm.crash t ht

/-- **Handlers.** -/
theorem tryCatch {handler : ε → Prog σ ε α} (h : Meets p s P E C)
    (hh : ∀ e t, E e t → Meets (handler e) t P E' C) :
    Meets (MonadExcept.tryCatch p handler) s P E' C := by
  rcases hv : (p s).value with e | a
  · have htry : (MonadExcept.tryCatch p handler : Prog σ ε α) s = ⟨(handler e (p s).state).value,
        (handler e (p s).state).state, (p s).passed ++ (handler e (p s).state).passed⟩ := by
      simp only [MonadExcept.tryCatch, tryCatchThe, MonadExceptOf.tryCatch, hv]
    have hm := hh e _ (h.err e hv)
    refine ⟨fun b hb => ?_, fun e he => ?_, fun t ht => ?_⟩
    · rw [htry] at hb ⊢
      exact hm.ok b hb
    · rw [htry] at he ⊢
      exact hm.err e he
    · rw [htry] at ht
      rcases List.mem_append.1 ht with ht | ht
      · exact h.crash t ht
      · exact hm.crash t ht
  · have htry : (MonadExcept.tryCatch p handler : Prog σ ε α) s = ⟨.ok a, (p s).state, (p s).passed⟩ := by
      simp only [MonadExcept.tryCatch, tryCatchThe, MonadExceptOf.tryCatch, hv]
    refine ⟨fun b hb => ?_, fun e he => ?_, fun t ht => ?_⟩
    · rw [htry] at hb ⊢
      cases hb
      exact h.ok a hv
    · rw [htry] at he
      cases he
    · rw [htry] at ht
      exact h.crash t ht

end Meets

end Prog

end AisServer.Lib
