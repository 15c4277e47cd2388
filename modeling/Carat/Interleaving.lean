import Carat.LabelledRun

/-!
# Threads over shared state

A pool holds threads with a state each, over one shared state.  One thread moves
at a time, and an event carries the thread that shows it.  A simulation of single
threads that holds whatever the shared state is lifts to pools: other threads may
move in the middle of it.
-/

namespace Interleaving

open LabelledRun

universe u v w

variable {ι : Type w} [DecidableEq ι] {σ σ' ω : Type u} {ε : Type v}

/-! ## Events of one thread -/

def ofThread (i : ι) (trace : List (ι × ε)) : List ε :=
  trace.filterMap fun event => if event.1 = i then some event.2 else none

def byThread (i : ι) (events : List ε) : List (ι × ε) := events.map fun event => (i, event)

@[simp] theorem ofThread_append (i : ι) (first second : List (ι × ε)) :
    ofThread i (first ++ second) = ofThread i first ++ ofThread i second :=
  List.filterMap_append

@[simp] theorem ofThread_byThread_self (i : ι) (events : List ε) :
    ofThread i (byThread i events) = events := by
  simp [ofThread, byThread, List.filterMap_map]

theorem ofThread_byThread_of_ne {i j : ι} (hne : j ≠ i) (events : List ε) :
    ofThread i (byThread j events) = [] := by
  simp [ofThread, byThread, List.filterMap_map, hne]

/-! ## Pools -/

/-- What threads do: how one comes into being, and how it moves. -/
structure Threads (σ ω : Type u) (ε : Type v) where
  starts : σ → ω → ω → Prop
  moves : σ → ω → List ε → σ → ω → Prop

structure Pool (ι : Type w) (σ ω : Type u) where
  thread : ι → Option σ
  shared : ω

namespace Pool

def put (pool : Pool ι σ ω) (i : ι) (thread : σ) (shared : ω) : Pool ι σ ω :=
  ⟨Function.update pool.thread i (some thread), shared⟩

theorem put_self {pool : Pool ι σ ω} {i : ι} {thread : σ} (hthread : pool.thread i = some thread) :
    pool.put i thread pool.shared = pool := by
  rw [put, ← hthread, Function.update_eq_self]

/-- No threads yet. -/
def idle (shared : ω) : Pool ι σ ω := ⟨fun _ => none, shared⟩

inductive Step (threads : Threads σ ω ε) :
    Pool ι σ ω → List (ι × ε) → Pool ι σ ω → Prop where
  | starts {pool : Pool ι σ ω} {i : ι} {thread : σ} {shared : ω} :
      pool.thread i = none → threads.starts thread pool.shared shared →
        Step threads pool [] (pool.put i thread shared)
  | moves {pool : Pool ι σ ω} {i : ι} {thread next : σ} {events : List ε} {shared : ω} :
      pool.thread i = some thread → threads.moves thread pool.shared events next shared →
        Step threads pool (byThread i events) (pool.put i next shared)

end Pool

/-! ## Lifting a simulation to pools -/

/-- The second kind of thread shows the events of `weave`, and what it shows while
the first has not moved yet is `pending`. -/
structure Lags (threads threads' : Threads σ ω ε) (weave : ε → List ε)
    (Related : List ε → σ → σ → Prop) : Prop where
  starts : ∀ thread' shared shared', threads'.starts thread' shared shared' →
    ∃ thread, threads.starts thread shared shared' ∧ Related [] thread thread'
  moves : ∀ pending thread thread' shared events next' shared', Related pending thread thread' →
    threads'.moves thread' shared events next' shared' →
      (shared' = shared ∧ Related (pending ++ events) thread next') ∨
        ∃ next, threads.moves thread shared events next shared' ∧
          events.flatMap weave = pending ++ events ∧ Related [] next next'

/-- Thread by thread the second pool is ahead by what is pending. -/
structure PoolLags (Related : List ε → σ → σ → Prop) (weave : ε → List ε)
    (trace trace' : List (ι × ε)) (pending : ι → List ε) (pool pool' : Pool ι σ ω) : Prop where
  shared : pool'.shared = pool.shared
  threads : ∀ i, Option.Rel (Related (pending i)) (pool.thread i) (pool'.thread i)
  idle : ∀ i, pool'.thread i = none → pending i = []
  sublist : trace.Sublist trace'
  shown : ∀ i, ofThread i trace' = (ofThread i trace).flatMap weave ++ pending i

section Lifting

variable {threads threads' : Threads σ ω ε} {weave : ε → List ε}
  {Related : List ε → σ → σ → Prop} {trace trace' : List (ι × ε)} {pending : ι → List ε}
  {pool pool' : Pool ι σ ω}

theorem PoolLags.put (hlags : PoolLags Related weave trace trace' pending pool pool') {i : ι}
    {now : List ε} {thread thread' : σ} {shared : ω} {events events' : List (ι × ε)}
    (hrelated : Related now thread thread') (hevents : events.Sublist events')
    (hmine : ofThread i (trace' ++ events') = (ofThread i (trace ++ events)).flatMap weave ++ now)
    (hothers : ∀ j, j ≠ i → ofThread j events' = [] ∧ ofThread j events = []) :
    PoolLags Related weave (trace ++ events) (trace' ++ events')
      (Function.update pending i now) (pool.put i thread shared) (pool'.put i thread' shared) where
  shared := rfl
  threads := by
    intro j
    by_cases hj : j = i
    · subst j
      simpa [Pool.put] using hrelated
    · simpa [Pool.put, hj] using hlags.threads j
  idle := by
    intro j
    by_cases hj : j = i
    · simp [Pool.put, hj]
    · simpa [Pool.put, hj] using hlags.idle j
  sublist := hlags.sublist.append hevents
  shown := by
    intro j
    by_cases hj : j = i
    · subst j
      simpa using hmine
    · obtain ⟨hnone', hnone⟩ := hothers j hj
      simp [hnone, hnone', hj, hlags.shown j]

theorem PoolLags.thread_none (hlags : PoolLags Related weave trace trace' pending pool pool')
    {i : ι} (hnone : pool'.thread i = none) : pool.thread i = none := by
  have hthread := hlags.threads i
  rw [hnone] at hthread
  generalize pool.thread i = found at hthread
  cases hthread
  rfl

theorem PoolLags.thread_some (hlags : PoolLags Related weave trace trace' pending pool pool')
    {i : ι} {thread' : σ} (hsome : pool'.thread i = some thread') :
    ∃ thread, pool.thread i = some thread ∧ Related (pending i) thread thread' := by
  have hthread := hlags.threads i
  rw [hsome] at hthread
  generalize pool.thread i = found at hthread
  cases hthread with
  | some hrelated => exact ⟨_, rfl, hrelated⟩

theorem ofThread_others {i : ι} {events : List ε} :
    ∀ j, j ≠ i → ofThread j (byThread i events) = [] ∧
      ofThread j ([] : List (ι × ε)) = [] := fun _ hj =>
  ⟨ofThread_byThread_of_ne hj.symm events, rfl⟩

/-- Every run of the second pool is one of the first, with more events in it. -/
theorem Lags.reflect (hlags : Lags threads threads' weave Related) {start : ω}
    (hrun : Run (Pool.Step threads') (Pool.idle start) trace' pool') :
    ∃ (trace : List (ι × ε)) (pool : Pool ι σ ω) (pending : ι → List ε),
      Run (Pool.Step threads) (Pool.idle start) trace pool ∧
        PoolLags Related weave trace trace' pending pool pool' := by
  induction hrun with
  | nil =>
      exact ⟨[], _, fun _ => [], .nil, rfl, fun _ => .none, fun _ _ => rfl, .refl _, fun _ => rfl⟩
  | @snoc trace₀' _ pool₀' _ _ hstep ih =>
      obtain ⟨trace, pool, pending, hrun, hpool⟩ := ih
      cases hstep with
      | @starts i thread' shared' hfree hstarts =>
          obtain ⟨thread, hstarts', hrelated⟩ := hlags.starts _ _ _ hstarts
          rw [hpool.shared] at hstarts'
          have hshown := hpool.shown i
          rw [hpool.idle i hfree] at hshown
          exact ⟨_, _, _, hrun.snoc (.starts (hpool.thread_none hfree) hstarts'),
            hpool.put hrelated (.refl _) (by simpa using hshown) (by simp [ofThread])⟩
      | @moves i thread' next' events shared' hthread hmoves =>
          obtain ⟨thread, hthread', hrelated⟩ := hpool.thread_some hthread
          have hshown := hpool.shown i
          rcases hlags.moves _ _ _ _ _ _ _ hrelated hmoves with
            ⟨rfl, hahead⟩ | ⟨next, hmoves', hevents, hlevel⟩
          · have hput : PoolLags Related weave (trace ++ []) (trace₀' ++ byThread i events)
                (Function.update pending i (pending i ++ events))
                (pool.put i thread pool₀'.shared) (pool₀'.put i next' pool₀'.shared) :=
              hpool.put hahead (List.nil_sublist _) (by simp [hshown]) ofThread_others
            rw [hpool.shared, Pool.put_self hthread', ← hpool.shared, List.append_nil] at hput
            exact ⟨trace, pool, _, hrun, hput⟩
          · rw [hpool.shared] at hmoves'
            refine ⟨_, _, _, hrun.snoc (.moves hthread' hmoves'),
              hpool.put hlevel (.refl _) ?_ ?_⟩
            · simp [hshown, hevents]
            · exact fun j hj =>
                ⟨ofThread_byThread_of_ne hj.symm _, ofThread_byThread_of_ne hj.symm _⟩

/-! ## The way forward -/

/-- A thread on its own. -/
def Threads.Solo (threads : Threads σ ω ε) (before : σ × ω) (events : List ε)
    (after : σ × ω) : Prop :=
  threads.moves before.1 before.2 events after.1 after.2

omit [DecidableEq ι] in
theorem byThread_append (i : ι) (first second : List ε) :
    byThread i (first ++ second) = byThread i first ++ byThread i second :=
  List.map_append

theorem Pool.put_put (pool : Pool ι σ ω) (i : ι) (first second : σ) (shared shared' : ω) :
    (pool.put i first shared).put i second shared' = pool.put i second shared' := by
  simp [Pool.put]

/-- What one thread does on its own it does in a pool. -/
theorem run_of_solo {i : ι} {before after : σ × ω} {events : List ε}
    (hthread : pool.thread i = some before.1) (hshared : pool.shared = before.2)
    (hrun : Run threads.Solo before events after) :
    Run (Pool.Step threads) pool (byThread i events) (pool.put i after.1 after.2) := by
  induction hrun with
  | nil =>
      rw [← hshared, Pool.put_self hthread]
      exact .nil
  | @snoc events' events middle last _ hlast ih =>
      rw [byThread_append, ← pool.put_put i middle.1 last.1 middle.2 last.2]
      exact ih.snoc (.moves (by simp [Pool.put]) hlast)

/-- The second kind of thread can do what the first does. -/
structure Follows (threads threads' : Threads σ ω ε) (weave : ε → List ε)
    (Related : σ → σ → Prop) : Prop where
  starts : ∀ thread shared shared', threads.starts thread shared shared' →
    ∃ thread', threads'.starts thread' shared shared' ∧ Related thread thread'
  moves : ∀ thread thread' shared events next shared', Related thread thread' →
    threads.moves thread shared events next shared' →
      ∃ next', Run threads'.Solo (thread', shared) (events.flatMap weave) (next', shared') ∧
        Related next next'

structure PoolFollows (Related : σ → σ → Prop) (pool pool' : Pool ι σ ω) : Prop where
  shared : pool'.shared = pool.shared
  threads : ∀ i, Option.Rel Related (pool.thread i) (pool'.thread i)

theorem PoolFollows.put {Related : σ → σ → Prop} (hfollows : PoolFollows Related pool pool')
    (i : ι) {thread thread' : σ} (hrelated : Related thread thread') (shared : ω) :
    PoolFollows Related (pool.put i thread shared) (pool'.put i thread' shared) where
  shared := rfl
  threads := by
    intro j
    by_cases hj : j = i
    · subst j
      simpa [Pool.put] using hrelated
    · simpa [Pool.put, hj] using hfollows.threads j

/-- Every run of the first pool is one of the second, with more events in it. -/
theorem Follows.simulate {Related : σ → σ → Prop}
    (hfollows : Follows threads threads' weave Related) {start : ω}
    (hrun : Run (Pool.Step threads) (Pool.idle start) trace pool) :
    ∃ pool' : Pool ι σ ω, Run (Pool.Step threads') (Pool.idle start)
        (trace.flatMap fun event => byThread event.1 (weave event.2)) pool' ∧
      PoolFollows Related pool pool' := by
  have hweave : ∀ (i : ι) (events : List ε),
      ((byThread i events).flatMap fun event => byThread event.1 (weave event.2)) =
        byThread i (events.flatMap weave) := by
    intro i events
    simp [byThread, List.flatMap_map, List.map_flatMap]
  induction hrun with
  | nil => exact ⟨_, .nil, rfl, fun _ => .none⟩
  | snoc _ hstep ih =>
      obtain ⟨pool', hrun', hpool⟩ := ih
      cases hstep with
      | @starts i thread shared hfree hstarts =>
          obtain ⟨thread', hstarts', hrelated⟩ := hfollows.starts _ _ _ hstarts
          have hfree' : pool'.thread i = none := by
            have hthread := hpool.threads i
            rw [hfree] at hthread
            generalize pool'.thread i = found at hthread
            cases hthread
            rfl
          rw [← hpool.shared] at hstarts'
          exact ⟨_, by simpa using hrun'.snoc (.starts hfree' hstarts'),
            hpool.put i hrelated shared⟩
      | @moves i thread next events shared hthread hmoves =>
          have hrel := hpool.threads i
          rw [hthread] at hrel
          generalize hfound : pool'.thread i = found at hrel
          cases hrel with
          | some hrelated =>
              obtain ⟨next', hsolo, hnext⟩ := hfollows.moves _ _ _ _ _ _ hrelated hmoves
              have hblock := run_of_solo hfound hpool.shared hsolo
              rw [List.flatMap_append, hweave]
              exact ⟨_, hrun'.trans hblock, hpool.put i hnext shared⟩

end Lifting

end Interleaving
