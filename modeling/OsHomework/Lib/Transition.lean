import Mathlib.Logic.Relation

/-!
# Labelled transition systems

The model every stateful component of the development is an instance of: a set
of initial states and a labelled step relation. A label is one call, one
critical section or one scheduling decision, together with the choices the
environment makes in it.

* `System.Run` — the finite runs of a system, extended at the end;
* `System.Reachable` — the states some run from an initial state ends in;
* `Run.invariant` and `Reachable.invariant` — the invariant rule, stated once:
  what holds initially and is kept by every step holds along every run;
* `Run.simulate` — the forward simulation rule: step by step matching lifts to
  runs with the same labels;
* `System.restrict` — the runs whose steps all meet a condition on the state
  before the step and its label.
-/

namespace OsHomework

/-- A labelled transition system. -/
structure System (State : Type) (Label : Type) where
  /-- The states a run may start in. -/
  init : State → Prop
  step : State → Label → State → Prop

namespace System

variable {State Label : Type}

/-- `sys.Run s ls t`: the labels `ls`, taken in order, lead from `s` to `t`. -/
inductive Run (sys : System State Label) (s : State) : List Label → State → Prop
  | nil : Run sys s [] s
  | snoc {ls : List Label} {t u : State} {l : Label} :
      Run sys s ls t → sys.step t l u → Run sys s (ls ++ [l]) u

/-- The states some run from an initial state ends in. -/
def Reachable (sys : System State Label) (t : State) : Prop :=
  ∃ s ls, sys.init s ∧ sys.Run s ls t

/-- The system whose steps are those of `sys` that meet `ok`. -/
def restrict (sys : System State Label) (ok : State → Label → Prop) : System State Label where
  init := sys.init
  step s l t := ok s l ∧ sys.step s l t

variable {sys : System State Label} {s t u : State} {ls : List Label} {l : Label}

/-- **The invariant rule along a run.** -/
theorem Run.invariant {Inv : State → Prop}
    (hstep : ∀ s l t, Inv s → sys.step s l t → Inv t)
    (h : sys.Run s ls t) (hs : Inv s) : Inv t := by
  induction h with
  | nil => exact hs
  | snoc _ hst ih => exact hstep _ _ _ ih hst

/-- **Forward simulation along a run**: if every step of `sys` is matched by a step of `abs` with
the same label, then so is every run. -/
theorem Run.simulate {Abs : Type} {abs : System Abs Label} {R : State → Abs → Prop} {a : Abs}
    (hstep : ∀ s l t a, R s a → sys.step s l t → ∃ b, abs.step a l b ∧ R t b)
    (h : sys.Run s ls t) (hs : R s a) : ∃ b, abs.Run a ls b ∧ R t b := by
  induction h with
  | nil => exact ⟨a, .nil, hs⟩
  | snoc _ hst ih =>
    obtain ⟨b, hrun, hb⟩ := ih
    obtain ⟨c, hc, htc⟩ := hstep _ _ _ _ hb hst
    exact ⟨c, hrun.snoc hc, htc⟩

/-- **The invariant rule for reachable states.** -/
theorem Reachable.invariant {Inv : State → Prop}
    (hinit : ∀ s, sys.init s → Inv s)
    (hstep : ∀ s l t, Inv s → sys.step s l t → Inv t)
    (h : sys.Reachable t) : Inv t := by
  obtain ⟨s, ls, hs, hrun⟩ := h
  exact hrun.invariant hstep (hinit s hs)

/-- An initial state is reachable. -/
theorem Reachable.of_init (h : sys.init s) : sys.Reachable s :=
  ⟨s, [], h, .nil⟩

/-- One more step stays among the reachable states. -/
theorem Reachable.tail (h : sys.Reachable s) (hst : sys.step s l t) : sys.Reachable t := by
  obtain ⟨s₀, ls, hs₀, hrun⟩ := h
  exact ⟨s₀, ls ++ [l], hs₀, hrun.snoc hst⟩

/-- The states a restricted system reaches are reachable. -/
theorem Reachable.of_restrict {ok : State → Label → Prop} (h : (sys.restrict ok).Reachable t) :
    sys.Reachable t := by
  obtain ⟨s₀, ls, hs₀, hrun⟩ := h
  refine ⟨s₀, ls, hs₀, ?_⟩
  induction hrun with
  | nil => exact .nil
  | snoc _ hst ih => exact ih.snoc hst.2

end System

end OsHomework
