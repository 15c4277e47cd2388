import Mathlib.Data.List.Basic
import Mathlib.Tactic

/-!
# Runs, their traces and their invariants

A step may show any finite number of events; a silent step shows none.  A run
collects the events of its steps, oldest first.  Invariants may speak of the
trace so far, which is how a later event is tied to an earlier one.
-/

namespace LabelledRun

universe u v w

variable {σ : Type u} {ε : Type v} {σ' : Type u} {ε' : Type w}

inductive Run (step : σ → List ε → σ → Prop) (start : σ) : List ε → σ → Prop where
  | nil : Run step start [] start
  | snoc {trace events : List ε} {middle last : σ} :
      Run step start trace middle → step middle events last →
        Run step start (trace ++ events) last

namespace Run

variable {step : σ → List ε → σ → Prop}

theorem single {start last : σ} {events : List ε}
    (hstep : step start events last) : Run step start events last := by
  simpa using Run.nil.snoc hstep

theorem trans {start middle last : σ} {first second : List ε}
    (hfirst : Run step start first middle) (hsecond : Run step middle second last) :
    Run step start (first ++ second) last := by
  induction hsecond with
  | nil => simpa using hfirst
  | snoc _ hstep ih =>
      rw [← List.append_assoc]
      exact ih.snoc hstep

theorem mono {step' : σ → List ε → σ → Prop} {start last : σ} {trace : List ε}
    (hrun : Run step start trace last)
    (hsub : ∀ state events next, step state events next → step' state events next) :
    Run step' start trace last := by
  induction hrun with
  | nil => exact .nil
  | snoc _ hlast ih => exact ih.snoc (hsub _ _ _ hlast)

/-- What holds at the start and is preserved by every step holds after every
run. -/
theorem invariant (Good : List ε → σ → Prop) {start last : σ} {trace : List ε}
    (hrun : Run step start trace last) (hstart : Good [] start)
    (hstep : ∀ trace state events next,
      Good trace state → step state events next → Good (trace ++ events) next) :
    Good trace last := by
  induction hrun with
  | nil => exact hstart
  | snoc _ hlast ih => exact hstep _ _ _ _ ih hlast

/-- A step-by-step simulation lifts to runs; `weave` says which events of the
second system stand for an event of the first. -/
theorem simulate {step' : σ' → List ε' → σ' → Prop} {Related : σ → σ' → Prop}
    {weave : ε → List ε'}
    (hstep : ∀ state state' events next,
      Related state state' → step state events next →
        ∃ next', Run step' state' (events.flatMap weave) next' ∧
          Related next next')
    {start last : σ} {trace : List ε} (hrun : Run step start trace last)
    {start' : σ'} (hrelated : Related start start') :
    ∃ last', Run step' start' (trace.flatMap weave) last' ∧ Related last last' := by
  induction hrun with
  | nil => exact ⟨start', Run.nil, hrelated⟩
  | snoc _ hlast ih =>
      obtain ⟨middle', hrun', hmiddle⟩ := ih
      obtain ⟨last', hsteps', hlast'⟩ := hstep _ _ _ _ hmiddle hlast
      refine ⟨last', ?_, hlast'⟩
      rw [List.flatMap_append]
      exact hrun'.trans hsteps'

/-- The way back, when the second system shows some events before the first has
taken the step they belong to: `pending` are the events it is ahead by. -/
theorem reflect {step' : σ' → List ε' → σ' → Prop}
    {Related : List ε' → σ → σ' → Prop} {weave : ε → List ε'}
    (hstep : ∀ pending state state' events' next',
      Related pending state state' → step' state' events' next' →
        Related (pending ++ events') state next' ∨
          ∃ events next, step state events next ∧
            events.flatMap weave = pending ++ events' ∧ Related [] next next')
    {start' last' : σ'} {trace' : List ε'} (hrun : Run step' start' trace' last')
    {start : σ} (hrelated : Related [] start start') :
    ∃ trace last pending, Run step start trace last ∧
      trace' = trace.flatMap weave ++ pending ∧ Related pending last last' := by
  induction hrun with
  | nil => exact ⟨[], start, [], Run.nil, rfl, hrelated⟩
  | snoc _ hlast ih =>
      obtain ⟨trace, middle, pending, hrun', rfl, hmiddle⟩ := ih
      rcases hstep _ _ _ _ _ hmiddle hlast with hahead | ⟨events, next, hnext, hevents, hlevel⟩
      · exact ⟨trace, middle, _, hrun', by simp, hahead⟩
      · exact ⟨_, next, [], hrun'.snoc hnext, by simp [hevents], hlevel⟩

end Run

/-- Every event of a trace is accounted for by what came before it. -/
def Explained (Accounts : List ε → ε → Prop) (trace : List ε) : Prop :=
  ∀ before event after, trace = before ++ event :: after → Accounts before event

theorem explained_nil (Accounts : List ε → ε → Prop) : Explained Accounts [] := by
  intro before event after hsplit
  simp at hsplit

theorem Explained.snoc {Accounts : List ε → ε → Prop} {trace : List ε} {last : ε}
    (htrace : Explained Accounts trace) (hlast : Accounts trace last) :
    Explained Accounts (trace ++ [last]) := by
  intro before event after hsplit
  rcases List.eq_nil_or_concat after with rfl | ⟨after', final, rfl⟩
  · obtain ⟨rfl, hevent⟩ := List.append_inj' hsplit rfl
    obtain rfl : last = event := by simpa using hevent
    exact hlast
  · apply htrace before event after'
    have hsplit' : trace ++ [last] = (before ++ event :: after') ++ [final] := by
      simpa using hsplit
    exact (List.append_inj' hsplit' rfl).1

theorem Explained.append {Accounts : List ε → ε → Prop} {trace events : List ε}
    (htrace : Explained Accounts trace)
    (hevents : ∀ earlier, ∀ event ∈ events, Accounts earlier event) :
    Explained Accounts (trace ++ events) := by
  induction events using List.reverseRecOn with
  | nil => rwa [List.append_nil]
  | append_singleton events last ih =>
      rw [← List.append_assoc]
      exact (ih fun earlier event hevent => hevents earlier event (by simp [hevent])).snoc
        (hevents _ last (by simp))

theorem Explained.of_append {Accounts : List ε → ε → Prop} {first second : List ε}
    (hexplained : Explained Accounts (first ++ second)) : Explained Accounts first := by
  rintro before event after rfl
  exact hexplained before event (after ++ second) (by simp)

/-- The last element of a trace that passes a filter. -/
theorem exists_split_of_filterMap {ε' : Type w} {show? : ε → Option ε'} {trace : List ε}
    {earlier : List ε'} {last : ε'} (hlast : trace.filterMap show? = earlier ++ [last]) :
    ∃ before event after, trace = before ++ event :: after ∧ show? event = some last ∧
      before.filterMap show? = earlier ∧ after.filterMap show? = [] := by
  obtain ⟨first, second, rfl, hfirst, hsecond⟩ := List.filterMap_eq_append_iff.mp hlast
  obtain ⟨skipped, event, after, rfl, hskipped, hevent, hafter⟩ :=
    List.filterMap_eq_cons_iff.mp hsecond
  refine ⟨first ++ skipped, event, after, by simp, hevent, ?_, hafter⟩
  rw [List.filterMap_append, hfirst, List.filterMap_eq_nil_iff.mpr hskipped, List.append_nil]

/-- The last event of a kind is where it is. -/
theorem last_unique (Kind : ε → Prop) {before before' after after' : List ε} {event event' : ε}
    (hsplit : before ++ event :: after = before' ++ event' :: after') (hevent : Kind event)
    (hevent' : Kind event') (hafter : ∀ later ∈ after, ¬Kind later)
    (hafter' : ∀ later ∈ after', ¬Kind later) : before = before' ∧ event = event' := by
  rcases List.append_eq_append_iff.mp hsplit with ⟨mid, rfl, hmid⟩ | ⟨mid, rfl, hmid⟩
  · cases mid with
    | nil => exact ⟨by simp, (List.cons.inj hmid).1⟩
    | cons first rest =>
        obtain ⟨_, rfl⟩ := List.cons.inj hmid
        exact absurd hevent' (hafter event' (by simp))
  · cases mid with
    | nil => exact ⟨by simp, (List.cons.inj hmid).1.symm⟩
    | cons first rest =>
        obtain ⟨_, rfl⟩ := List.cons.inj hmid
        exact absurd hevent (hafter' event (by simp))

/-- Invariants of a run of a total operation, with the operations still to come
as part of the hypothesis. -/
theorem foldl_invariant {ο : Type v} (next : σ → ο → σ) (Good : σ → Prop)
    {start : σ} (hstart : Good start) {ops : List ο}
    (hstep : ∀ done op rest, ops = done ++ op :: rest →
      Good (done.foldl next start) → Good (next (done.foldl next start) op)) :
    ∀ done rest, ops = done ++ rest → Good (done.foldl next start) := by
  intro done
  induction done using List.reverseRecOn with
  | nil => exact fun _ _ => hstart
  | append_singleton done op ih =>
      intro rest hops
      have hops' : ops = done ++ op :: rest := by simpa using hops
      rw [List.foldl_append]
      exact hstep done op rest hops' (ih (op :: rest) hops')

end LabelledRun
