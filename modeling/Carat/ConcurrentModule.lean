import Carat.GuardedAccess
import Carat.Interleaving

/-!
# An instrumented module on several processors

Threads of one module run over the same memory, and any of them may move between
a guard call and its access.  As what a thread has in front of it depends on no
memory, matching the original thread by thread is enough.
-/

namespace Carat

open LabelledRun Interleaving

variable {Val World : Type}

/-- The threads of a module: a thread begins when one of its functions is called
from outside. -/
def moduleThreads (M : Module) (interp : Interp Val World) :
    Threads (List (Frame Val)) World (Event Val) where
  starts frames world world' :=
    ∃ name args F frame, M.definition? name = some F ∧ Frame.start F args = some frame ∧
      frames = [frame] ∧ world' = interp.enter world
  moves frames world events frames' world' :=
    Steps M interp ⟨frames, world⟩ events ⟨frames', world'⟩

abbrev ModulePool (Val World : Type) := Pool ℕ (List (Frame Val)) World

/-- Any number of threads, in any order of steps. -/
abbrev PoolRun (M : Module) (interp : Interp Val World) (world : World)
    (trace : List (ℕ × Event Val)) (last : ModulePool Val World) : Prop :=
  Run (Pool.Step (moduleThreads M interp)) (Pool.idle world) trace last

def FramesAhead (M : Module) (before : InstId → List Inst) (interp : Interp Val World)
    (pending : List (Event Val)) (frames frames' : List (Frame Val)) : Prop :=
  ∀ world, State.Ahead M before interp pending ⟨frames, world⟩ ⟨frames', world⟩

theorem State.Ahead.frames {M : Module} {before : InstId → List Inst}
    {interp : Interp Val World} {pending : List (Event Val)} {frames frames' : List (Frame Val)}
    {world world' : World}
    (hahead : State.Ahead M before interp pending ⟨frames, world⟩ ⟨frames', world'⟩) :
    world' = world ∧ FramesAhead M before interp pending frames frames' := by
  cases hahead with
  | finished => exact ⟨rfl, fun _ => .finished⟩
  | running hphase hcallers => exact ⟨rfl, fun _ => .running hphase hcallers⟩

theorem run_solo {M : Module} {interp : Interp Val World} {state last : State Val World}
    {trace : List (Event Val)} (hrun : Run (Steps M interp) state trace last) :
    Run (moduleThreads M interp).Solo (state.frames, state.world) trace
      (last.frames, last.world) := by
  induction hrun with
  | nil => exact .nil
  | snoc _ hlast ih => exact ih.snoc hlast

section Instrumented

variable {M M' : Module} {before : InstId → List Inst} (hinst : Instrumented M M' before)
  (hexternal : M.definition? "texas_guard" = none) {interp : Interp Val World}
  (hinert : GuardInert interp)

include hinst hexternal hinert

theorem Instrumented.lags : Lags (moduleThreads M interp) (moduleThreads M' interp)
    (withGuards M interp) (FramesAhead M before interp) where
  starts := by
    rintro _ world _ ⟨name, args, F', frame', hF', hframe', rfl, rfl⟩
    rw [hinst.definition?_eq] at hF'
    obtain ⟨F, hF, rfl⟩ := Option.map_eq_some_iff.mp hF'
    have hrel := Frame.start_matches before (M.mem_insts_of_definition? hF) args
    rw [hframe'] at hrel
    obtain ⟨frame, hframe, hlevel⟩ := exists_of_rel_some_right hrel
    exact ⟨[frame], ⟨name, args, F, frame, hF, hframe, rfl, rfl⟩,
      fun _ => .running (.level hlevel) .nil⟩
  moves := by
    intro pending frames frames' world events next' world' hahead hmoves
    rcases step_backward hinst hexternal hinert (hahead world) hmoves with
      hstill | ⟨⟨frames₁, world₁⟩, hstep, hevents, hnext⟩
    · obtain ⟨rfl, hframes⟩ := hstill.frames
      exact Or.inl ⟨rfl, hframes⟩
    · obtain ⟨rfl, hframes⟩ := hnext.frames
      exact Or.inr ⟨frames₁, hstep, hevents, hframes⟩

theorem Instrumented.poolFollows : Follows (moduleThreads M interp) (moduleThreads M' interp)
    (withGuards M interp) (FramesLevel M before) where
  starts := by
    rintro _ world _ ⟨name, args, F, frame, hF, hframe, rfl, rfl⟩
    have hrel := Frame.start_matches before (M.mem_insts_of_definition? hF) args
    rw [hframe] at hrel
    obtain ⟨frame', hframe', hlevel⟩ := exists_of_rel_some hrel
    exact ⟨[frame'], ⟨name, args, _, frame',
      by rw [hinst.definition?_eq, hF, Option.map_some], hframe', rfl, rfl⟩, .running hlevel .nil⟩
  moves := by
    intro frames frames' world events next world' hlevel hmoves
    have hstate : State.Level M before ⟨frames, world⟩ ⟨frames', world⟩ := ⟨rfl, hlevel⟩
    obtain ⟨⟨frames₁, world₁⟩, hrun, hworld, hframes⟩ :=
      step_forward hinst hexternal hinert hstate hmoves
    obtain rfl : world₁ = world' := hworld
    exact ⟨frames₁, run_solo hrun, hframes⟩

end Instrumented

end Carat
