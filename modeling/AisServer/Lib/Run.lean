import Mathlib.Data.List.Basic
import Mathlib.Data.Option.Basic

/-!
# Runs of a guarded step function

A system is a step function `step : σ → ε → Option σ`; `none` says that the event is not possible in
the state.  `run` takes a list of events, `Guarded C` says that every event of the list meets the
condition `C` in the state it is taken from.

* `run_inv` — an invariant kept by the guarded steps holds after every guarded run;
* `run_history` — the same for an invariant that also speaks of the events that came;
* `run_project` — a run of a system is a run of its part;
* `guarded_iff` — when a step outside the guard breaks the property at once, a run is guarded
  *exactly when* the property holds in every state it passes;
* `balanced_iff` — two counts agree throughout *exactly when* no step loses anything;
* `guarded_iff_throughout` — the same when the property breaks only some events later;
* `driven_inv` — an invariant of a system whose events are chosen by a schedule.
-/

namespace AisServer.Lib

variable {σ ε : Type} {step : σ → ε → Option σ} {C : σ → ε → Prop}

/-- The state after a list of events, `none` as soon as one of them is not possible. -/
def run (step : σ → ε → Option σ) (s : σ) (es : List ε) : Option σ := es.foldlM step s

@[simp] theorem run_nil (s : σ) : run step s [] = some s := rfl

@[simp] theorem run_cons (s : σ) (e : ε) (es : List ε) :
    run step s (e :: es) = (step s e).bind fun t => run step t es := rfl

theorem run_append (s : σ) (es fs : List ε) :
    run step s (es ++ fs) = (run step s es).bind fun t => run step t fs := by
  unfold run
  rw [List.foldlM_append]
  rfl

theorem run_append_of {s t : σ} {es fs : List ε} (h : run step s es = some t) :
    run step s (es ++ fs) = run step t fs := by
  rw [run_append, h, Option.bind_some]

theorem run_total (f : σ → ε → σ) (s : σ) (es : List ε) :
    run (fun s e => some (f s e)) s es = some (es.foldl f s) := by
  induction es generalizing s with
  | nil => rfl
  | cons e es ih =>
    rw [run_cons, Option.bind_some, ih]
    rfl

theorem run_cons_some {s u : σ} {e : ε} {es : List ε} (h : run step s (e :: es) = some u) :
    ∃ t, step s e = some t ∧ run step t es = some u := by
  rwa [run_cons, Option.bind_eq_some_iff] at h

/-- Every event of the run meets `C` in the state it is taken from. -/
def Guarded (step : σ → ε → Option σ) (C : σ → ε → Prop) : σ → List ε → Prop
  | _, [] => True
  | s, e :: es => C s e ∧ ∀ t, step s e = some t → Guarded step C t es

instance decidableGuarded [∀ s e, Decidable (C s e)] :
    ∀ (s : σ) (es : List ε), Decidable (Guarded step C s es)
  | _, [] => isTrue trivial
  | s, e :: es =>
    match h : step s e with
    | none => decidable_of_iff (C s e) (by simp [Guarded, h])
    | some t =>
      have := decidableGuarded t es
      decidable_of_iff (C s e ∧ Guarded step C t es) (by simp [Guarded, h])

theorem Guarded.mono {D : σ → ε → Prop} (hCD : ∀ s e, C s e → D s e) :
    ∀ {s : σ} {es : List ε}, Guarded step C s es → Guarded step D s es
  | _, [], _ => trivial
  | _, _ :: _, h => ⟨hCD _ _ h.1, fun t ht => Guarded.mono hCD (h.2 t ht)⟩

theorem Guarded.of_prefix {s : σ} {es fs : List ε} (hp : es <+: fs)
    (h : Guarded step C s fs) : Guarded step C s es := by
  obtain ⟨gs, rfl⟩ := hp
  induction es generalizing s with
  | nil => trivial
  | cons e es ih => exact ⟨h.1, fun t ht => ih (h.2 t ht)⟩

/-- The guard of the event that follows an initial piece of a guarded run. -/
theorem Guarded.at {s t : σ} {es fs : List ε} {e : ε} (h : Guarded step C s (es ++ e :: fs))
    (hr : run step s es = some t) : C t e := by
  induction es generalizing s with
  | nil =>
    obtain rfl : s = t := by simpa using hr
    exact h.1
  | cons e' es ih =>
    obtain ⟨u, hu, hr⟩ := run_cons_some hr
    exact ih (h.2 u hu) hr

theorem guarded_append {s : σ} {es fs : List ε} : Guarded step C s (es ++ fs) ↔
    Guarded step C s es ∧ ∀ t, run step s es = some t → Guarded step C t fs := by
  induction es generalizing s with
  | nil => simp [Guarded]
  | cons e es ih =>
    constructor
    · intro h
      refine ⟨⟨h.1, fun t ht => (ih.1 (h.2 t ht)).1⟩, fun u hu => ?_⟩
      obtain ⟨t, ht, hu⟩ := run_cons_some hu
      exact (ih.1 (h.2 t ht)).2 u hu
    · rintro ⟨h, hfs⟩
      refine ⟨h.1, fun t ht => ih.2 ⟨h.2 t ht, fun u hu => hfs u ?_⟩⟩
      rw [run_cons, ht]
      exact hu

theorem Guarded.and {D : σ → ε → Prop} {s : σ} {es : List ε} (hC : Guarded step C s es)
    (hD : Guarded step D s es) : Guarded step (fun s e => C s e ∧ D s e) s es := by
  induction es generalizing s with
  | nil => trivial
  | cons e es ih => exact ⟨⟨hC.1, hD.1⟩, fun t ht => ih (hC.2 t ht) (hD.2 t ht)⟩

theorem guarded_of_forall_mem {s : σ} {es : List ε} (h : ∀ e ∈ es, ∀ s, C s e) :
    Guarded step C s es := by
  induction es generalizing s with
  | nil => trivial
  | cons e es ih =>
    exact ⟨h e (List.mem_cons_self ..) s, fun t _ => ih fun e' he' => h e' (List.mem_cons_of_mem _ he')⟩

theorem guarded_true (s : σ) (es : List ε) : Guarded step (fun _ _ => True) s es :=
  guarded_of_forall_mem fun _ _ _ => trivial

/-- **The invariant rule.**  What the guarded steps keep, every guarded run keeps. -/
theorem run_inv {I : σ → Prop} (hstep : ∀ s e t, I s → C s e → step s e = some t → I t)
    {s t : σ} {es : List ε} (h0 : I s) (hg : Guarded step C s es) (hr : run step s es = some t) :
    I t := by
  induction es generalizing s with
  | nil =>
    obtain rfl : s = t := by simpa using hr
    exact h0
  | cons e es ih =>
    obtain ⟨u, hu, hr⟩ := run_cons_some hr
    exact ih (hstep s e u h0 hg.1 hu) (hg.2 u hu) hr

/-- Two guards that agree wherever an invariant holds guard the same runs. -/
theorem guarded_congr {D : σ → ε → Prop} {I : σ → Prop} (hstep : ∀ s e t, I s → step s e = some t → I t)
    (hCD : ∀ s e, I s → (C s e ↔ D s e)) {s : σ} {es : List ε} (h0 : I s) :
    Guarded step C s es ↔ Guarded step D s es := by
  induction es generalizing s with
  | nil => exact Iff.rfl
  | cons e es ih =>
    exact and_congr (hCD s e h0) (forall₂_congr fun t ht => ih (hstep s e t h0 ht))

/-- The invariant rule when no step needs a guard. -/
theorem run_inv_of_step {I : σ → Prop} (hstep : ∀ s e t, I s → step s e = some t → I t)
    {s t : σ} {es : List ε} (h0 : I s) (hr : run step s es = some t) : I t :=
  run_inv (C := fun _ _ => True) (fun s e t hs _ h => hstep s e t hs h) h0 (guarded_true s es) hr

/-- The invariant rule for what is said of a state and the events that led to it. -/
theorem run_history {I : σ → List ε → Prop}
    (hstep : ∀ s fs e t, I s fs → step s e = some t → I t (fs ++ [e])) {s t : σ} {es : List ε}
    (h0 : I s []) (hr : run step s es = some t) : I t es := by
  have hrun : ∀ (es fs : List ε) (s : σ), I s fs → run step s es = some t → I t (fs ++ es) := by
    intro es
    induction es with
    | nil =>
      intro fs s hs hr
      obtain rfl : s = t := by simpa using hr
      simpa using hs
    | cons e es ih =>
      intro fs s hs hr
      obtain ⟨u, hu, hr⟩ := run_cons_some hr
      simpa using ih (fs ++ [e]) u (hstep s fs e u hs hu) hr
  exact hrun es [] s h0 hr

/-- A part of a system runs as a system of its own, when every step of the whole is some steps of the part. -/
theorem run_project {σ' ε' : Type} {step' : σ' → ε' → Option σ'} (f : σ → σ')
    (hstep : ∀ s e t, step s e = some t → ∃ es', run step' (f s) es' = some (f t)) {s t : σ} {es : List ε}
    (hr : run step s es = some t) : ∃ es', run step' (f s) es' = some (f t) := by
  induction es generalizing s with
  | nil =>
    obtain rfl : s = t := by simpa using hr
    exact ⟨[], rfl⟩
  | cons e es ih =>
    obtain ⟨u, hu, hr⟩ := run_cons_some hr
    obtain ⟨fs, hfs⟩ := hstep s e u hu
    obtain ⟨gs, hgs⟩ := ih hr
    exact ⟨fs ++ gs, (run_append_of hfs).trans hgs⟩

/-- **Exact guards.**  If the guarded steps keep `I`, `I` implies `P`, and a possible step outside the
guard ends in a state without `P`, then a possible run is guarded exactly when `P` holds in every
state it passes. -/
theorem guarded_iff {I P : σ → Prop} (hstep : ∀ s e t, I s → C s e → step s e = some t → I t)
    (hP : ∀ s, I s → P s) (hbad : ∀ s e t, I s → ¬ C s e → step s e = some t → ¬ P t)
    {s u : σ} {es : List ε} (h0 : I s) (hr : run step s es = some u) :
    Guarded step C s es ↔ ∀ fs, fs <+: es → ∀ t, run step s fs = some t → P t := by
  constructor
  · intro hg fs hfs t ht
    exact hP t (run_inv hstep h0 (hg.of_prefix hfs) ht)
  · intro hall
    induction es generalizing s with
    | nil => trivial
    | cons e es ih =>
      obtain ⟨t, ht, hr⟩ := run_cons_some hr
      have hPt : P t := hall [e] ⟨es, rfl⟩ t (by simp [ht])
      have hC : C s e := by
        by_contra hC
        exact hbad s e t h0 hC ht hPt
      refine ⟨hC, fun t' ht' => ?_⟩
      obtain rfl : t = t' := Option.some.inj (ht.symm.trans ht')
      refine ih (hstep s e t h0 hC ht) hr fun fs hfs v hv => hall (e :: fs) ?_ v ?_
      · exact List.cons_prefix_cons.2 ⟨rfl, hfs⟩
      · simp [ht, hv]

/-- **Balances.**  Two counts agree in every state of a run before it is `Off`, exactly when no step before that
loses anything: a step moves their difference by what it loses. -/
theorem balanced_iff (came accounted : σ → ℕ) (lost : σ → ε → ℕ) (Off : σ → Prop)
    (hOff : ∀ s e t, Off s → step s e = some t → Off t)
    (hOn : ∀ s e t, ¬ Off s → step s e = some t → Off t → lost s e = 0)
    (hstep : ∀ s e t, step s e = some t → ¬ Off t →
      came t + accounted s = came s + accounted t + lost s e)
    {s u : σ} {es : List ε} (h0 : came s = accounted s) (hr : run step s es = some u) :
    Guarded step (fun s e => Off s ∨ lost s e = 0) s es ↔
      ∀ fs, fs <+: es → ∀ t, run step s fs = some t → ¬ Off t → came t = accounted t := by
  refine guarded_iff (I := fun s => ¬ Off s → came s = accounted s) ?_ (fun s hs => hs) ?_
    (fun _ => h0) hr
  · intro s e t hs hc h hoff
    have hon : ¬ Off s := fun hs => hoff (hOff s e t hs h)
    have hmove := hstep s e t h hoff
    rw [hc.resolve_left hon, hs hon] at hmove
    omega
  · intro s e t hs hc h ht
    obtain ⟨hon, hlost⟩ := not_or.1 hc
    have hoff : ¬ Off t := fun hoff => hlost (hOn s e t hon h hoff)
    have hmove := hstep s e t h hoff
    have hs := hs hon
    have ht := ht hoff
    omega

/-- What holds on a run and however it goes on from any point of it with events in `Out`, as long as
`F` is met. -/
def Throughout (step : σ → ε → Option σ) (F : σ → ε → Prop) (Out : ε → Prop) (P : σ → Prop) (s : σ)
    (es : List ε) : Prop :=
  ∀ fs, fs <+: es → ∀ gs, (∀ e ∈ gs, Out e) → Guarded step F s (fs ++ gs) →
    ∀ t, run step s (fs ++ gs) = some t → P t

/-- **Exact guards, with delay.**  As `guarded_iff`, when a step outside the guard breaks the property
only after some more events in `Out`, of which the guard asks nothing. -/
theorem guarded_iff_throughout {F : σ → ε → Prop} {Out : ε → Prop} {I P : σ → Prop}
    (hstep : ∀ s e t, I s → F s e → C s e → step s e = some t → I t)
    (hP : ∀ s, I s → P s) (hOut : ∀ s e, Out e → C s e)
    (hbad : ∀ s e t, I s → step s e = some t → ¬ C s e →
      ∃ gs u, (∀ e ∈ gs, Out e) ∧ Guarded step F t gs ∧ run step t gs = some u ∧ ¬ P u)
    {s u : σ} {es : List ε} (h0 : I s) (hr : run step s es = some u) (hF : Guarded step F s es) :
    Guarded step C s es ↔ Throughout step F Out P s es := by
  constructor
  · intro hg fs hfs gs hgs hF' t ht
    have hC : Guarded step C s (fs ++ gs) :=
      guarded_append.2 ⟨hg.of_prefix hfs, fun v _ =>
        guarded_of_forall_mem fun e he s => hOut s e (hgs e he)⟩
    exact hP t (run_inv (fun s e t hs hFC => hstep s e t hs hFC.1 hFC.2) h0 (hF'.and hC) ht)
  · intro hall
    induction es generalizing s with
    | nil => trivial
    | cons e es ih =>
      obtain ⟨t, ht, hr⟩ := run_cons_some hr
      have hguard : ∀ gs, Guarded step F t gs → Guarded step F s (e :: gs) := by
        intro gs hgs
        refine ⟨hF.1, fun t' ht' => ?_⟩
        obtain rfl : t = t' := Option.some.inj (ht.symm.trans ht')
        exact hgs
      have hrun : ∀ gs, run step s (e :: gs) = run step t gs := by
        intro gs
        rw [run_cons, ht, Option.bind_some]
      have hC : C s e := by
        by_contra hC
        obtain ⟨gs, w, hgs, hFt, hw, hPw⟩ := hbad s e t h0 ht hC
        exact hPw (hall [e] ⟨es, rfl⟩ gs hgs (hguard gs hFt) w ((hrun gs).trans hw))
      refine ⟨hC, fun t' ht' => ?_⟩
      obtain rfl : t = t' := Option.some.inj (ht.symm.trans ht')
      refine ih (hstep s e t h0 hF.1 hC ht) hr (hF.2 t ht) fun fs hfs gs hgs hFt v hv => ?_
      exact hall (e :: fs) (List.cons_prefix_cons.2 ⟨rfl, hfs⟩) gs hgs (hguard _ hFt) v
        ((hrun _).trans hv)

/-! ### A schedule -/

/-- The state after `n` events, when `next` says which event comes next; with none the state stays. -/
def driven (step : σ → ε → Option σ) (next : ℕ → σ → Option ε) (s : σ) : ℕ → σ
  | 0 => s
  | n + 1 => ((next n (driven step next s n)).bind (step (driven step next s n))).getD (driven step next s n)

variable {next : ℕ → σ → Option ε}

theorem driven_succ_of {s t u : σ} {e : ε} {n : ℕ} (h : driven step next s n = t) (he : next n t = some e)
    (hu : step t e = some u) : driven step next s (n + 1) = u := by
  rw [driven, h, he, Option.bind_some, hu, Option.getD_some]

/-- An invariant that the chosen events keep holds at every point. -/
theorem driven_inv {I : σ → Prop} (hstep : ∀ n s e t, I s → next n s = some e → step s e = some t → I t)
    {s : σ} (h0 : I s) (n : ℕ) : I (driven step next s n) := by
  induction n with
  | zero => exact h0
  | succ n ih =>
    rw [driven]
    rcases hn : next n (driven step next s n) with _ | e
    · exact ih
    · rw [Option.bind_some]
      rcases ht : step (driven step next s n) e with _ | t
      · exact ih
      · exact hstep n _ e t ih hn ht

end AisServer.Lib
