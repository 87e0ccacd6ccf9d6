import ManagedC.Proofs.Isolation.Runs
import ManagedC.Proofs.Memory.Conserved

/-!
# Counts, log and heap

The machine keeps counts of what it does to memory, and a log of most of it. Counts, log and heap agree
after every instruction, with an answer or a fault (`Run.recorded_step`): the one difference is that a call
of `freeArgv` is counted as soon as it has found its array, and logged only if all blocks could be given
back. Main statement: they agree whatever the host asks of a machine, one request after the other, between
the requests and at every step of each (`Session.recorded`).
-/

namespace ManagedC

/-- The counts agree with the heap and the log, and so many calls of `freeArgv` were counted in vain. -/
structure Store.Recorded (s : Store) (vain : Nat) : Prop where
  /-- All blocks there are were made. -/
  allocated : s.stats.blocksAllocated = s.heap.blocks.size
  /-- Those that are no longer in use were given back. -/
  freed : s.stats.blocksFreed = s.heap.blocks.count .freed
  /-- The others are in use. -/
  live : s.heap.liveBlocks + s.stats.blocksFreed = s.stats.blocksAllocated
  /-- Every native copy of a string array is logged. -/
  argvAllocations : s.stats.argvAllocations = s.events.count .argvAllocated
  pins : s.stats.pins = s.events.count .pinned
  /-- Every pin that the program undoes is logged. -/
  unpins : s.stats.unpins = s.events.count .unpinned
  /-- Every pin that the end of a call undoes is logged. -/
  frameExitUnpins : s.stats.frameExitUnpins = s.events.count .frameExitUnpinned
  /-- Native copies given back are logged, but for the calls in vain. -/
  argvFrees : s.stats.argvFrees = s.events.count .argvFreed + vain

/-- How many of so many steps call `freeArgv` in vain. -/
def Run.vainFrees (program : Module) (limits : Limits) : Nat → Run → Nat
  | 0, _ => 0
  | k + 1, r =>
    (r.freesInVain limits).toNat +
      match r.step program limits with
      | .more r => r.vainFrees program limits k
      | .done _ _ _ => 0

namespace Session

/-- What the host can ask of a session. -/
inductive Request where
  /-- To start the program. -/
  | start (args : List String)
  /-- To call a method. -/
  | call (name : String) (arguments : List Value)

/-- The run that a request begins, if it is not refused. -/
def run? (s : Session) : Request → Option Run
  | .start args => s.entryRun? args
  | .call name arguments => s.callRun? name arguments

/-- The session after a request. There is none if the machine never stops. -/
def serve? (s : Session) : Request → Option Session
  | .start args => (s.runEntry args).map (·.2)
  | .call name arguments => (s.call name arguments).map (·.2)

/-- The session after requests, one after the other. -/
def serveAll? (s : Session) (requests : List Request) : Option Session := requests.foldlM serve? s

/-- How many calls of `freeArgv` are counted in vain until a request is answered. -/
def vainFrees (s : Session) (request : Request) : Nat :=
  match s.run? request with
  | some r => r.vainFrees s.program s.limits (Run.fuel s.program s.limits)
  | none => 0

/-- How many are counted in vain until all requests are answered. -/
def vainFreesOfAll (s : Session) : List Request → Nat
  | [] => 0
  | request :: requests =>
    s.vainFrees request +
      match s.serve? request with
      | some t => t.vainFreesOfAll requests
      | none => 0

end Session

/-! ## The heap -/

namespace Heap

/-- A block is in use, or it was given back. -/
theorem liveBlocks_add_freed (h : Heap) : h.liveBlocks + h.blocks.count .freed = h.blocks.size := by
  have hfreed : ∀ b : Block, (b == .freed) = decide ¬ b.isLive = true := by
    rintro (_ | _) <;> rfl
  have hcount : h.blocks.count .freed =
      h.blocks.toList.countP fun b => decide ¬ b.isLive = true := by
    rw [← Array.count_toList, List.count, funext hfreed]
  rw [hcount, liveBlocks, ← List.length_eq_countP_add_countP, Array.length_toList]

/-- A block in use is replaced. -/
theorem count_setIfInBounds {blocks : Array Block} {id : Nat} {bytes : List UInt8}
    (h : blocks[id]? = some (.live bytes)) (b : Block) :
    (blocks.setIfInBounds id b).count .freed =
      blocks.count .freed + if b == .freed then 1 else 0 := by
  obtain ⟨hlt, hget⟩ := Array.getElem?_eq_some_iff.1 h
  have hget : blocks.toList[id] = .live bytes := by rwa [Array.getElem_toList]
  rw [← Array.count_toList, ← Array.count_toList, Array.toList_setIfInBounds, List.count_set hlt,
    hget]
  rfl

end Heap

/-! ## Steps -/

namespace Store

variable {s : Store} {n : Nat}

/-- The blocks are counted as they are, and the rest has not changed. -/
theorem Recorded.of_blocks {t : Store} (hs : s.Recorded n)
    (hallocated : t.stats.blocksAllocated = t.heap.blocks.size)
    (hfreed : t.stats.blocksFreed = t.heap.blocks.count .freed)
    (hstats : t.stats = { s.stats with
      blocksAllocated := t.stats.blocksAllocated
      blocksFreed := t.stats.blocksFreed })
    (hevents : t.events = s.events) : t.Recorded n where
  allocated := hallocated
  freed := hfreed
  live := by rw [hallocated, hfreed, Heap.liveBlocks_add_freed]
  argvAllocations := by rw [hstats, hevents]; exact hs.argvAllocations
  pins := by rw [hstats, hevents]; exact hs.pins
  unpins := by rw [hstats, hevents]; exact hs.unpins
  frameExitUnpins := by rw [hstats, hevents]; exact hs.frameExitUnpins
  argvFrees := by rw [hstats, hevents]; exact hs.argvFrees

theorem recorded_empty : ({} : Store).Recorded 0 := ⟨rfl, rfl, rfl, rfl, rfl, rfl, rfl, rfl⟩

/-- What the machine does in one go is recorded. -/
theorem conserved_recorded (n : Nat) : Conserved (·.Recorded n) where
  objects s objects hs := hs.of_blocks hs.allocated hs.freed rfl rfl
  bytes s id new hlive hs := by
    obtain ⟨bytes, hlive⟩ := hlive
    refine hs.of_blocks (hs.allocated.trans Array.size_setIfInBounds.symm) ?_ rfl rfl
    exact hs.freed.trans (Heap.count_setIfInBounds hlive (.live new)).symm
  made s bytes hs := by
    refine hs.of_blocks ?_ ?_ rfl rfl
    · exact (congrArg (· + 1) hs.allocated).trans (Array.size_push _).symm
    · show s.stats.blocksFreed = (s.heap.blocks.push (.live bytes)).count .freed
      rw [Array.count_push, hs.freed]
      rfl
  givenBack s id hlive hs := by
    obtain ⟨bytes, hlive⟩ := hlive
    refine hs.of_blocks (hs.allocated.trans Array.size_setIfInBounds.symm) ?_ rfl rfl
    exact (congrArg (· + 1) hs.freed).trans (Heap.count_setIfInBounds hlive .freed).symm
  recorded s e hs := by
    have hlog : ∀ d, (s.record e).events.count d = s.events.count d + if e == d then 1 else 0 :=
      fun d => Array.count_push
    -- For each event one count changes, and in the log the number of that event.
    constructor
    case allocated => cases e <;> exact hs.allocated
    case freed => cases e <;> exact hs.freed
    case live => cases e <;> exact hs.live
    case argvFrees =>
      rw [hlog, Nat.add_right_comm, ← hs.argvFrees]
      cases e <;> rfl
    all_goals rw [hlog]
    case argvAllocations =>
      rw [← hs.argvAllocations]
      cases e <;> rfl
    case pins =>
      rw [← hs.pins]
      cases e <;> rfl
    case unpins =>
      rw [← hs.unpins]
      cases e <;> rfl
    case frameExitUnpins =>
      rw [← hs.frameExitUnpins]
      cases e <;> rfl

/-- The calls in progress are counted elsewhere. -/
theorem Recorded.atDepth (hs : s.Recorded n) (d : Nat) : Recorded { s with depth := d } n :=
  ⟨hs.allocated, hs.freed, hs.live, hs.argvAllocations, hs.pins, hs.unpins, hs.frameExitUnpins,
    hs.argvFrees⟩

theorem lasting_recorded (n : Nat) : Lasting (·.Recorded n) :=
  { conserved_recorded n with depth := fun _ d hs => hs.atDepth d }

/-- A call that is counted and not logged is one more in vain. -/
theorem Recorded.tally (hs : s.Recorded n) : (s.tally .argvFreed).Recorded (n + 1) :=
  ⟨hs.allocated, hs.freed, hs.live, hs.argvAllocations, hs.pins, hs.unpins, hs.frameExitUnpins,
    congrArg (· + 1) hs.argvFrees⟩

end Store

namespace Run

variable {program : Module} {limits : Limits} {n : Nat} {r : Run}

/-- After a step the counts agree with the heap and the log again. -/
theorem recorded_step (hr : r.store.Recorded n) :
    (r.step program limits).store.Recorded (n + (r.freesInVain limits).toNat) := by
  have hstep : r.StepsTo program limits (r.step program limits) := stepsTo_step r
  have h := hstep.conserves (Store.lasting_recorded n) (Store.lasting_recorded (n + 1))
    (fun _ hs => hs.tally) hr
  cases hvain : r.freesInVain limits <;> rw [hvain] at h <;> exact h

/-! ## Runs -/

theorem recorded_after {k : Nat} {r' : Run} (hr : r.store.Recorded n)
    (h : r.after? program limits k = some r') :
    r'.store.Recorded (n + r.vainFrees program limits k) := by
  induction k generalizing r n with
  | zero =>
    cases h
    exact hr
  | succ k ih =>
    have hstep := @recorded_step program limits n r hr
    rw [after?] at h
    rw [vainFrees, ← Nat.add_assoc]
    cases hnext : r.step program limits with
    | more r₁ =>
      rw [hnext] at h hstep
      exact ih hstep h
    | done =>
      rw [hnext] at h
      cases h

theorem recorded_iterate {k : Nat} {o : Ending} (hr : r.store.Recorded n)
    (h : r.iterate program limits k = some o) :
    o.2.1.Recorded (n + r.vainFrees program limits k) := by
  induction k generalizing r n with
  | zero => cases h
  | succ k ih =>
    have hstep := @recorded_step program limits n r hr
    rw [iterate] at h
    rw [vainFrees, ← Nat.add_assoc]
    cases hnext : r.step program limits with
    | more r₁ =>
      rw [hnext] at h hstep
      exact ih hstep h
    | done =>
      rw [hnext] at h hstep
      cases h
      exact hstep

end Run

/-! ## Requests -/

namespace Session

variable {s t : Session} {n : Nat} {store : Store} {request : Request}

theorem recorded_begin {m : Method} {arguments : List Value} {r : Run} (hs : store.Recorded n)
    (h : s.begin? store m arguments = some r) : r.store.Recorded n := by
  unfold begin? at h
  split at h
  · cases h
    exact hs.atDepth _
  · cases h

theorem recorded_invoke {m : Method} {arguments : List Value} {result : CallResult}
    (hs : store.Recorded n)
    (h : ({ s with store := store } : Session).invoke m arguments = some (result, t)) :
    t.store.Recorded (n + match s.begin? store m arguments with
      | some r => r.vainFrees s.program s.limits (Run.fuel s.program s.limits)
      | none => 0) := by
  unfold invoke at h
  unfold begin?
  dsimp only at h
  cases henter : Activation.enter m arguments store.depth s.limits.depth with
  | error fault =>
    rw [henter] at h
    cases h
    exact hs
  | ok a =>
    rw [henter] at h
    obtain ⟨o, ho, heq⟩ := Option.map_eq_some_iff.1 h
    cases heq
    exact Run.recorded_iterate (hs.atDepth _) ho

/-- A run begins with the counts as the last request left them. -/
theorem recorded_run {r : Run} (hs : s.store.Recorded n) (h : s.run? request = some r) :
    r.store.Recorded n := by
  cases request with
  | start args =>
    rcases runEntry_cases s args with ⟨hnone, -⟩ | ⟨entry, -, store, arguments, hstore, hrun, -⟩
    · cases hnone.symm.trans h
    · refine recorded_begin ?_ (hrun.symm.trans h)
      rcases hstore with rfl | rfl
      · exact hs
      · exact (Store.conserved_recorded n).hostArguments args hs
  | call name arguments =>
    obtain ⟨m, -, hbegin⟩ := Option.bind_eq_some_iff.1 h
    exact recorded_begin hs hbegin

/-- A request leaves counts that agree with the heap and the log. -/
theorem recorded_serve (hs : s.store.Recorded n) (h : s.serve? request = some t) :
    t.store.Recorded (n + s.vainFrees request) := by
  cases request with
  | start args =>
    obtain ⟨⟨outcome, u⟩, hanswer, rfl⟩ := Option.map_eq_some_iff.1 h
    unfold vainFrees run?
    rcases runEntry_cases s args with ⟨hnone, failure, hrefused⟩ |
      ⟨entry, -, store, arguments, hstore, hrun, hinvoked⟩
    · cases hrefused.symm.trans hanswer
      dsimp only
      rw [hnone]
      exact hs
    · obtain ⟨⟨result, v⟩, hinvoke, heq⟩ := Option.map_eq_some_iff.1 (hinvoked.symm.trans hanswer)
      cases heq
      dsimp only
      rw [hrun]
      refine recorded_invoke ?_ hinvoke
      rcases hstore with rfl | rfl
      · exact hs
      · exact (Store.conserved_recorded n).hostArguments args hs
  | call name arguments =>
    obtain ⟨⟨result, u⟩, hanswer, rfl⟩ := Option.map_eq_some_iff.1 h
    have hrun : s.run? (.call name arguments) =
        (s.program.findMethod? name).bind fun m => s.begin? s.store m arguments := rfl
    unfold call at hanswer
    unfold vainFrees
    rw [hrun]
    cases hfind : s.program.findMethod? name with
    | none =>
      rw [hfind] at hanswer
      cases hanswer
      exact hs
    | some m =>
      rw [hfind] at hanswer
      exact recorded_invoke hs hanswer

theorem recorded_serveAll {requests : List Request} (hs : s.store.Recorded n)
    (h : s.serveAll? requests = some t) : t.store.Recorded (n + s.vainFreesOfAll requests) := by
  induction requests generalizing s n with
  | nil =>
    cases h
    exact hs
  | cons request requests ih =>
    obtain ⟨u, hu, hrest⟩ := Option.bind_eq_some_iff.1 h
    rw [vainFreesOfAll, hu, ← Nat.add_assoc]
    exact ih (recorded_serve hs hu) hrest

/-- On a new machine the host makes requests one after the other. After them, and at every step of the run
that the next request begins, the counts agree with the heap and the log: as many blocks were allocated as
there are, as many were freed as are no longer in use, everything that is logged is counted, and everything
that is counted is logged but the calls of `freeArgv` that faulted when they had found their array. -/
theorem recorded {program : Module} {limits : Limits} {requests : List Request} {s : Session}
    (h : (fresh program limits).serveAll? requests = some s) :
    s.store.Recorded ((fresh program limits).vainFreesOfAll requests) ∧
      ∀ request r k r', s.run? request = some r → r.after? s.program s.limits k = some r' →
        r'.store.Recorded ((fresh program limits).vainFreesOfAll requests +
          r.vainFrees s.program s.limits k) := by
  have hs := recorded_serveAll (n := 0) Store.recorded_empty h
  rw [Nat.zero_add] at hs
  exact ⟨hs, fun request r k r' hr hafter => Run.recorded_after (recorded_run hs hr) hafter⟩

end Session

/-- A program that gives the same native copies back twice. -/
def Module.freeingTwice : Module where
  name := "freeing"
  methods := #[{ Method.declare "main" .void .publicStatic with
    parameters := [⟨some "args", .array .string⟩]
    body := ⟨#[.loadArgument 0, .callHelper .argsToArgv, .dup, .callHelper .freeArgv,
      .callHelper .freeArgv, .ret], .empty, []⟩ }]
  entryPoint := some 0

/-- Its second call of `freeArgv` is counted in vain. When it is started again, that is still the only one
until the second call is made again. -/
theorem Session.recorded_freeingTwice :
    let first := fresh .freeingTwice { steps := 20, depth := 1 }
    ∃ s r r', first.serveAll? [.start ["ab", ""]] = some s ∧ s.run? (.start ["c"]) = some r ∧
      r.after? s.program s.limits 4 = some r' ∧ s.store.Recorded 1 ∧ r'.store.Recorded 1 ∧
      r'.store.stats.argvFrees = 3 := by
  intro first
  have hserved : (first.serveAll? [.start ["ab", ""]]).isSome = true := by decide +kernel
  obtain ⟨s, hs⟩ := Option.isSome_iff_exists.1 hserved
  have hsteps : ((first.serveAll? [.start ["ab", ""]]).bind fun s =>
      (s.run? (.start ["c"])).bind fun r => (r.after? s.program s.limits 4).map fun r' =>
        (r.vainFrees s.program s.limits 4, r'.store.stats.argvFrees)) = some (0, 3) := by
    decide +kernel
  rw [hs, Option.bind_some] at hsteps
  obtain ⟨r, hr, hsteps⟩ := Option.bind_eq_some_iff.1 hsteps
  obtain ⟨r', hr', hcounts⟩ := Option.map_eq_some_iff.1 hsteps
  obtain ⟨hvain, hfrees⟩ := Prod.mk.inj hcounts
  have hfirst : first.vainFreesOfAll [.start ["ab", ""]] = 1 := by decide +kernel
  have hbetween : s.store.Recorded (first.vainFreesOfAll _) := (recorded hs).1
  have hwithin : r'.store.Recorded (first.vainFreesOfAll _ + _) := (recorded hs).2 _ r 4 r' hr hr'
  rw [hfirst] at hbetween hwithin
  rw [hvain] at hwithin
  exact ⟨s, r, r', hs, hr, hr', hbetween, hwithin, hfrees⟩

end ManagedC
