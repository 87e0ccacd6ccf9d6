import ManagedC.Proofs.Cleanup.Starter
import ManagedC.Proofs.Run.Termination

/-!
# Everything is given back

A program that is started with strings gives everything back, however its run ends: the native copies
of the strings are made and given back once, an array is pinned and unpinned once, and nothing is in
use in the end (`TranslationUnit.runEntry_cleansUp`). With `2 ^ 31 - 1` strings there are no 31 bits for
the length of the array: the starter faults before anything is pinned, and gives the copies back
(`TranslationUnit.runEntry_overlong`).
-/

namespace ManagedC

/-- A number below `2 ^ 31` is not changed by being cut down to 32 bits. -/
theorem TargetType.narrow_int32_ofNat {n : Nat} (h : n < 2 ^ 31) :
    TargetType.narrow .int32 (Int64.ofNat n) = Int64.ofNat n := by
  show Int64.ofInt ((Int64.ofNat n).toInt.bmod (2 ^ 32)) = Int64.ofNat n
  rw [Int64.toInt_ofNat_of_lt (by omega), Int.bmod_eq_of_le (by omega) (by omega),
    Int64.ofInt_eq_ofNat]

theorem Heap.Holds.addArray {h : Heap} {n argv : Nat} {element : TargetType}
    {elements : Array Value} (hh : h.Holds n argv fun _ => 0) :
    (h.addObject (.array element elements 0)).Holds n argv fun _ => 0 where
  argv := by
    have hlt := (Array.getElem?_eq_some_iff.1 hh.argv).1
    exact (Array.getElem?_push_lt hlt).trans
      ((Array.getElem?_eq_getElem hlt).symm.trans hh.argv)
  size := hh.size
  blocks := hh.blocks
  pins := by
    intro id element' elements' k hk
    unfold addObject at hk
    rw [Array.getElem?_push] at hk
    split at hk
    · cases hk
      rfl
    · exact hh.pins id _ _ _ hk

/-- A store before a program runs, with the strings that it is started with. -/
def hostStore (args : List String) : Store where
  heap :=
    let references := (List.range args.length).map Value.object
    { objects := (args.map HeapObject.string).toArray.push (.array .string references.toArray 0) }

theorem Session.hostArguments_fresh (args : List String) :
    hostArguments args {} = (.object args.length, hostStore args) := by
  rw [hostArguments_eq]
  simp [hostStore]

namespace EntryPoint

open Progress (Eventually Finally)

variable {program : Module} {limits : Limits} {post : CallResult → Store → Prop}
  {entry : MethodRef} {arg exit : Value} {n argv : Nat} {s : Store} {k : Int64}

/-- The length of the array of pointers. -/
theorem executes_arrayLength {a : Activation} {rest : List Value}
    (hs : s.heap.Holds n argv fun _ => 0) (ha : a.stack = .object argv :: rest) :
    a.Executes s .arrayLength
      { a with stack := .int (Int64.ofNat (n + 1)) :: rest }.advance s := by
  have h := Activation.Executes.arrayLength ha rfl (Heap.array_eq_ok.2 ⟨0, hs.argv⟩)
  rwa [size_pointerArray] at h

/-- The array that the entry function gets is pinned, and the function is called. -/
theorem finally_pinning {id steps : Nat} (hprogram : program.Hospitable)
    (hs : s.heap.Holds n argv fun _ => 0) (hne : argv ≠ id)
    (hid : s.heap.objects[id]? = some (.array .nativeString (pointerArray n) 0))
    (hpost : Settles post n { s with
      stats := { s.stats with pins := s.stats.pins + 1 }, events := s.events.push .pinned }) :
    Finally program limits post (.more ⟨s, steps, frame entry arg
      #[.int k, .object argv, .object id, .null, exit] [] 18 [], []⟩) := by
  have helement : Activation.elementReference s.heap .nativeString id 0 =
      .ok (.pointer ⟨.array id, 0, true⟩) := by
    unfold Activation.elementReference
    rw [Heap.array_eq_ok.2 ⟨0, hid⟩]
    show (if (_ || decide ((pointerArray n).size ≤ _)) = true then _ else _) = _
    rw [size_pointerArray]
    rfl
  let heap : Heap := { s.heap with
    objects := s.heap.objects.setIfInBounds id (.array .nativeString (pointerArray n) 1) }
  have hpin : s.heap.pin id = .ok heap :=
    Heap.changePins_eq_ok.2 ⟨.nativeString, pointerArray n, 0, hid, rfl⟩
  have hpinned : heap.objects[id]? = some (.array .nativeString (pointerArray n) 1) :=
    Array.getElem?_setIfInBounds_self_of_lt (Array.getElem?_eq_some_iff.1 hid).1
  have hwithin : ∀ v ∈ pointerArray n, v.Within (lent id) := by
    intro v hv
    rcases List.mem_append.1 (List.mem_toArray.1 hv) with hv | hv
    · obtain ⟨block, -, rfl⟩ := List.mem_map.1 hv
      trivial
    · obtain rfl := List.mem_singleton.1 hv
      trivial
  have hstore := @Activation.yields_repin_pin s .null (.pointer ⟨.array id, 0, true⟩) id heap rfl
    rfl hpin
  refine .executed rfl rfl (.loadLocal rfl) ?_
  refine .executed rfl rfl .constInt32 ?_
  refine .executed rfl rfl (.elementAddress rfl rfl rfl helement) ?_
  refine .executed rfl rfl (.storeLocal rfl rfl hstore) ?_
  refine .executed rfl rfl (.loadLocal rfl) ?_
  refine .executed rfl rfl (.loadLocal rfl) ?_
  refine .executed rfl rfl (.onTop rfl rfl rfl) ?_
  exact finally_called hprogram (hs.setArray _ _ hne hid) hpinned rfl hwithin hpost

/-- The array that the entry function gets is made and filled. -/
theorem finally_copying {steps : Nat} (hprogram : program.Hospitable)
    (hs : s.heap.Holds n argv fun _ => 0) (hn : n + 1 < 2 ^ 31)
    (hpost : Settles post n { s with
      stats := { s.stats with pins := s.stats.pins + 1 }, events := s.events.push .pinned }) :
    Finally program limits post (.more ⟨s, steps, frame entry arg
      #[.int k, .object argv, .null, .null, exit] [] 7 [], []⟩) := by
  have hnarrow := TargetType.narrow_int32_ofNat hn
  have hint : (Int64.ofNat (n + 1)).toInt = (n + 1 : Nat) := Int64.toInt_ofNat_of_lt (by omega)
  have hconvert : (Value.int <| TargetType.narrow .int32 ·) <$>
      Value.asInt (.int (Int64.ofNat (n + 1))) = .ok (.int (Int64.ofNat (n + 1))) := by
    show Except.ok (Value.int (TargetType.narrow .int32 (Int64.ofNat (n + 1)))) = _
    rw [hnarrow]
  let zeros : Array Value := .replicate (n + 1) (.zeroOf .nativeString)
  let id := s.heap.objects.size
  let t : Store := { s with heap := s.heap.addObject (.array .nativeString zeros 0) }
  have hnew : Yields (Activation.makeArray .nativeString (.int (Int64.ofNat (n + 1)))) s
      (.object id) t := by
    unfold Activation.makeArray
    refine Yields.bind_iff.2 ⟨_, s, Access.yields_ofExcept.2 ⟨rfl, rfl⟩, ?_⟩
    rw [if_neg (by rw [Int64.lt_iff_toInt_lt, hint]; show ¬ ((n + 1 : Nat) : Int) < 0; omega)]
    dsimp only
    rw [hint, Int.toNat_natCast]
    rfl
  have ht : t.heap.Holds n argv fun _ => 0 := hs.addArray
  have hlt : argv < id := (Array.getElem?_eq_some_iff.1 hs.argv).1
  have hid : t.heap.objects[id]? = some (.array .nativeString zeros 0) :=
    Array.getElem?_push_size
  let u : Store := { t with heap := { t.heap with
    objects := t.heap.objects.setIfInBounds id (.array .nativeString (pointerArray n) 0) } }
  have hcopied : Yields (Access.arrayCopy (.object argv) (.object id) (Int64.ofNat (n + 1))) t () u :=
    Access.yields_arrayCopy ht.argv hid (by rw [hint, size_pointerArray])
      (by rw [size_pointerArray]; exact Array.size_replicate)
  have hcall : Yields (Access.callHelper .arrayCopy
      [.object argv, .object id, .int (Int64.ofNat (n + 1))]) t none u :=
    Yields.bind_iff.2 ⟨_, t, Access.yields_ofExcept.2 ⟨rfl, rfl⟩,
      Yields.bind_iff.2 ⟨(), u, hcopied, Yields.pure_iff.2 ⟨rfl, rfl⟩⟩⟩
  have hu : u.heap.Holds n argv fun _ => 0 := by
    have hset := ht.setArray 0 (pointerArray n) (Nat.ne_of_lt hlt) hid
    simpa only [ite_self] using hset
  have huid : u.heap.objects[id]? = some (.array .nativeString (pointerArray n) 0) :=
    Array.getElem?_setIfInBounds_self_of_lt (Array.getElem?_eq_some_iff.1 hid).1
  refine .executed rfl rfl (.loadLocal rfl) ?_
  refine .executed rfl rfl (executes_arrayLength hs rfl) ?_
  refine .executed rfl rfl (.onTop rfl rfl hconvert) ?_
  refine .executed rfl rfl (.newArray rfl hnew) ?_
  refine .executed rfl rfl (.storeLocal rfl rfl (Yields.pure_iff.2 ⟨rfl, rfl⟩)) ?_
  refine .executed rfl rfl (.loadLocal rfl) ?_
  refine .executed rfl rfl (.loadLocal rfl) ?_
  refine .executed rfl rfl (.loadLocal rfl) ?_
  refine .executed rfl rfl (executes_arrayLength ht rfl) ?_
  refine .executed rfl rfl (.onTop rfl rfl hconvert) ?_
  refine .executed rfl rfl (.callHelper (Nat.le_refl 3) hcall) ?_
  exact finally_pinning hprogram hu (Nat.ne_of_lt hlt) huid hpost

/-- The crash of a starter that makes an array whose length has become negative. -/
def overlong : Crash := ⟨starterName, 10, .indexOutOfRange (-2147483648) 0⟩

/-- The length of an array of pointers that is too long for 32 bits becomes negative: no array is made
for the entry function, and only the outer handler runs. -/
theorem eventually_overflowing {steps : Nat} (hs : s.heap.Holds n argv fun _ => 0)
    (hn : n + 1 = 2 ^ 31) (hlimit : steps + 7 ≤ limits.steps)
    (hpost : ∀ t, t.heap.Clean → t.stats = { s.stats with
        argvFrees := s.stats.argvFrees + 1, blocksFreed := s.stats.blocksFreed + n } →
      t.events = s.events.push .argvFreed → post (.error overlong) t) :
    Eventually program limits post (.more ⟨s, steps, frame entry arg
      #[.int k, .object argv, .null, .null, exit] [] 7 [], []⟩) := by
  have hconvert : (Value.int <| TargetType.narrow .int32 ·) <$>
      Value.asInt (.int (Int64.ofNat (n + 1))) = .ok (.int (-2147483648)) := by
    rw [hn]
    rfl
  have hlt : ∀ k, k < 7 → steps + k < limits.steps := fun k hk => by omega
  have hraise : ∀ stack : List Value, Eventually program limits post
      (Run.raise s (steps + 4) overlong
        (frame entry arg #[.int k, .object argv, .null, .null, exit] stack 10 []) []) := by
    intro stack
    obtain ⟨t, hclean, hstats, hevents, hexecutes⟩ := exists_freed hs
    rw [Run.raise_of_covering_cons (a := frame _ _ _ stack 10 []) rfl]
    refine .executes hexecutes (by omega) ?_
    refine .step (.crashDone (hlt 6 (by decide)) rfl rfl rfl rfl) ?_
    dsimp only [Completion]
    rw [close_frame rfl]
    exact .done (hpost t.closed hclean hstats hevents)
  refine .executed (hlt 0 (by decide)) rfl rfl (.loadLocal rfl) ?_
  refine .executed (hlt 1 (by decide)) rfl rfl (executes_arrayLength hs rfl) ?_
  refine .executed (hlt 2 (by decide)) rfl rfl (.onTop rfl rfl hconvert) ?_
  exact .step (.faulted (t := s) (hlt 3 (by decide)) rfl rfl rfl) (hraise _)

end EntryPoint

/-- What is left of a run of a program that was started with `n` strings. -/
structure Store.CleanedUp (n : Nat) (s : Store) : Prop where
  /-- What happened, in order. -/
  events : s.events = #[.argvAllocated, .pinned, .unpinned, .argvFreed]
  /-- How often it happened. -/
  stats : s.stats = {
    argvAllocations := 1
    argvFrees := 1
    blocksAllocated := n
    blocksFreed := n
    pins := 1
    unpins := 1
    frameExitUnpins := 0 }
  /-- No block is in use. -/
  blocks : s.heap.liveBlocks = 0
  /-- No array is pinned. -/
  pins : ∀ id, s.heap.isPinned id = false

namespace EntryPoint

open Progress (Eventually Finally)

/-- The references that the host passes. -/
theorem getElem?_hostStore (args : List String) : (hostStore args).heap.objects[args.length]? =
    some (.array .string ((List.range args.length).map Value.object).toArray 0) := by
  have hsize : (args.map HeapObject.string).toArray.size = args.length := by simp
  unfold hostStore
  dsimp only
  rw [← hsize]
  exact Array.getElem?_push_size

/-- The strings that the host passes. -/
theorem strings_hostStore (args : List String) : ∀ p ∈ (List.range args.length).zip args,
    (hostStore args).heap.objects[p.1]? = some (.string p.2) := by
  rintro ⟨id, text⟩ hp
  obtain ⟨i, hi⟩ := List.mem_iff_getElem?.1 hp
  obtain ⟨hid, htext⟩ := List.getElem?_zip_eq_some.1 hi
  obtain ⟨hlt, rfl⟩ := List.getElem?_eq_some_iff.1 hid
  simp only [List.getElem_range, List.length_range] at hlt htext ⊢
  have hsize : i < (args.map HeapObject.string).toArray.size := by simpa using hlt
  unfold hostStore
  dsimp only
  rw [Array.getElem?_push_lt hsize]
  obtain ⟨_, htext⟩ := List.getElem?_eq_some_iff.1 htext
  simpa using htext

/-- The store in a starter after native copies of the strings were made. -/
def copiedStore (args : List String) : Store where
  heap := {
    objects := (hostStore args).heap.objects.push (.array .nativeString (pointerArray args.length) 0)
    blocks := (args.map Block.ofText).toArray }
  stats := { argvAllocations := 1, blocksAllocated := args.length }
  events := #[.argvAllocated]
  depth := 1

theorem holds_copiedStore (args : List String) :
    (copiedStore args).heap.Holds args.length (args.length + 1) fun _ => 0 where
  argv := by
    have hsize : (hostStore args).heap.objects.size = args.length + 1 := by simp [hostStore]
    unfold copiedStore
    dsimp only
    rw [← hsize]
    exact Array.getElem?_push_size
  size := by simp [copiedStore]
  blocks := by
    intro id hid
    exact ⟨args[id].toUTF8.toList ++ [0], by simp [copiedStore, hid, Block.ofText]⟩
  pins := by
    intro id element elements k hk
    unfold copiedStore hostStore at hk
    simp only [Array.getElem?_push] at hk
    split at hk
    · cases hk
      rfl
    · split at hk
      · cases hk
        rfl
      · simp at hk

theorem zeros_bridge (entry : MethodRef) : (bridge entry).locals.map (fun v => .zeroOf v.type) =
    (#[.int 0, .null, .null, .null, .int 0] : Array Value) := by
  simp [bridge, Value.zeroOf, TargetType.isInteger, TargetType.isFloating, TargetType.nativeStrings]

/-- A starter that gets strings from the host makes native copies of them. -/
theorem executes_copying (entry : MethodRef) (args : List String) :
    ∃ argc : Int64, Activation.ExecutesAll 7
      (frame entry (.object args.length) #[.int 0, .null, .null, .null, .int 0] [] 0 [])
      (hostStore args).opened
      (frame entry (.object args.length)
        #[.int argc, .object (args.length + 1), .null, .null, .int 0] [] 7 []) (copiedStore args) := by
  have hhost := getElem?_hostStore args
  have hsize : (hostStore args).heap.objects.size = args.length + 1 := by simp [hostStore]
  have hstore : (hostStore args).opened.withArgv args = { copiedStore args with events := #[] } := by
    simp [Store.withArgv, Store.withCopies, copiedStore, hostStore, Store.opened, pointerArray,
      Heap.addObject, TargetType.nativeString]
  have hcopies : Yields (Access.argsToArgv (.object args.length)) (hostStore args).opened
      (.object (args.length + 1)) { copiedStore args with events := #[] } := by
    have h := Access.yields_argsToArgv (s := (hostStore args).opened) hhost List.length_range
      (strings_hostStore args)
    rwa [hstore, Store.opened_heap, hsize] at h
  have hcall : Yields (Access.callHelper .argsToArgv [.object args.length]) (hostStore args).opened
      (some (.object (args.length + 1))) { copiedStore args with events := #[] } :=
    Yields.map_iff.2 ⟨_, hcopies, rfl⟩
  apply Exists.intro
  refine .cons rfl rfl (.loadArgument rfl) ?_
  refine .cons rfl rfl (.arrayLength rfl rfl (Heap.array_eq_ok.2 ⟨0, hhost⟩)) ?_
  refine .cons rfl rfl (.onTop rfl rfl rfl) ?_
  refine .cons rfl rfl (.storeLocal rfl rfl (Yields.pure_iff.2 ⟨rfl, rfl⟩)) ?_
  refine .cons rfl rfl (.loadArgument rfl) ?_
  refine .cons rfl rfl (.callHelper (Nat.le_refl 1) hcall) ?_
  exact .cons rfl rfl (.storeLocal rfl rfl (Yields.pure_iff.2 ⟨rfl, rfl⟩)) .nil

/-- A starter that gets strings from the host gives everything back. -/
theorem finally_started {program : Module} {limits : Limits} {entry : MethodRef}
    {args : List String} (hprogram : program.Hospitable) (hargs : args.length + 1 < 2 ^ 31) :
    Finally program limits (fun _ t => t.CleanedUp args.length) (.more ⟨(hostStore args).opened, 0,
      frame entry (.object args.length) #[.int 0, .null, .null, .null, .int 0] [] 0 [], []⟩) := by
  obtain ⟨argc, hcopying⟩ := executes_copying entry args
  refine .executes hcopying fun steps => ?_
  refine finally_copying hprogram (holds_copiedStore args) hargs ?_
  intro result t hclean hstats hevents
  exact ⟨hevents, hstats.trans (by simp [copiedStore]), hclean.blocks, hclean.pins⟩

/-- A starter that gets too many strings for an array with a null behind them crashes. -/
theorem eventually_started {program : Module} {limits : Limits} {entry : MethodRef}
    {args : List String} (hargs : args.length + 1 = 2 ^ 31) (hlimit : 14 ≤ limits.steps) :
    Eventually program limits (fun result t => result = .error overlong ∧ t.heap.Clean ∧
        t.stats = {
          argvAllocations := 1
          argvFrees := 1
          blocksAllocated := args.length
          blocksFreed := args.length } ∧
        t.events = #[.argvAllocated, .argvFreed]) (.more ⟨(hostStore args).opened, 0,
      frame entry (.object args.length) #[.int 0, .null, .null, .null, .int 0] [] 0 [], []⟩) := by
  obtain ⟨argc, hcopying⟩ := executes_copying entry args
  refine .executes hcopying (by omega) ?_
  refine eventually_overflowing (holds_copiedStore args) hargs hlimit ?_
  intro t hclean hstats hevents
  exact ⟨rfl, hclean, hstats.trans (by simp [copiedStore]), hevents⟩

end EntryPoint

/-- The methods of compiled functions cannot do harm. -/
theorem Program.Built.hospitable {name : String} {fs : List CompiledFunction} {p : Program}
    (h : Built name fs p) : p.module.Hospitable := by
  intro m hm
  rcases h.mem_methods hm with ⟨f, -, rfl⟩ | ⟨f, -, -, hstarter⟩
  · exact .inl ⟨fun _ _ => f.code.isPlain, f.code.unpinned, f.code.handlers⟩
  · exact .inr ⟨_, (EntryPoint.starter_eq_ok hstarter).2⟩

/-- The handlers of compiled programs lie behind what they protect. -/
theorem Module.Hospitable.forward {program : Module} (h : program.Hospitable) :
    ∀ m ∈ program.methods, m.Forward := by
  intro m hm regions hregions region hregion
  rcases h m hm with hm | ⟨entry, rfl⟩
  · rw [hm.handlers] at hregions
    cases hregions
    cases hregion
  · cases hregions
    rcases List.mem_cons.1 hregion with rfl | hregion
    · exact Nat.le_refl 28
    · obtain rfl := List.mem_singleton.1 hregion
      exact Nat.le_refl 33

/-- A program that starts with a starter is started with a reference to the strings of the host, and
exits as the call of the starter ends. -/
theorem Session.runEntry_bridge {s : Session} {entry : MethodRef} {args : List String}
    {a : Activation} {o : Ending}
    (hentry : s.program.entryMethod? = some (EntryPoint.bridge entry))
    (henter : Activation.enter (EntryPoint.bridge entry) [(hostArguments args s.store).1]
      (hostArguments args s.store).2.depth s.limits.depth = .ok a)
    (hends : Progress.Ends s.program s.limits
      (.more ⟨(hostArguments args s.store).2.opened, s.steps, a, []⟩) o) :
    s.runEntry args = some (exitCodeOf EntryPoint.starterName o.1,
      { s with store := o.2.1, steps := o.2.2 }) := by
  rcases hhost : hostArguments args s.store with ⟨arguments, started⟩
  rw [hhost] at henter hends
  have hinvoke := invoke_of_ends (s := { s with store := started })
    (Module.mem_of_entryMethod? hentry) henter hends
  unfold runEntry
  rw [hentry]
  have htype : TargetType.hostArguments = .array .string := rfl
  show (if TargetType.hostArguments = .array .string then _ else _) = _
  rw [if_pos htype, hhost]
  dsimp only
  rw [hinvoke]
  rfl

/-- A compiled program that starts with a starter begins with its first instruction, and its run has an
ending. -/
theorem TranslationUnit.exists_ends {unit : TranslationUnit} {name : String} {m : Module}
    {limits : Limits} (args : List String) (hcompile : unit.compile name = .ok m)
    (hentry : m.entryMethod?.map (·.name) = some EntryPoint.starterName) (hdepth : 1 ≤ limits.depth) :
    ∃ entry result store steps, m.Hospitable ∧
      Progress.Ends m limits (.more ⟨(hostStore args).opened, 0, EntryPoint.frame entry
        (.object args.length) #[.int 0, .null, .null, .null, .int 0] [] 0 [], []⟩)
        (result, store, steps) ∧
      ({ program := m, limits := limits } : Session).runEntry args =
        some (Session.exitCodeOf EntryPoint.starterName result, ⟨m, limits, store, steps⟩) := by
  obtain ⟨fs, p, hbuilt, rfl, -⟩ := built_of_compile hcompile
  have hprogram := hbuilt.hospitable
  obtain ⟨starter, hstarter, hname⟩ := Option.map_eq_some_iff.1 hentry
  obtain ⟨entry, rfl⟩ : ∃ entry, starter = EntryPoint.bridge entry := by
    obtain ⟨f, -, hmain, ⟨rfl, -⟩ | hs⟩ := hbuilt.entryMethod hstarter
    · rw [f.method_name, (beq_iff_eq.1 hmain : f.unit.name = _)] at hname
      exact absurd hname (by decide)
    · exact ⟨_, (EntryPoint.starter_eq_ok hs).2⟩
  have hhost := Session.hostArguments_fresh args
  have henter : Activation.enter (EntryPoint.bridge entry) [.object args.length] 0 limits.depth =
      .ok (EntryPoint.frame entry (.object args.length) #[.int 0, .null, .null, .null, .int 0] [] 0 []) :=
    Activation.enter_eq_ok.2 ⟨rfl, hdepth, _, EntryPoint.regions_bridge entry, by
      rw [EntryPoint.zeros_bridge]⟩
  obtain ⟨⟨result, store, steps⟩, hends⟩ := @Run.exists_ends p.module limits _ _ _ (hostStore args) 0
    hprogram.forward (Module.mem_of_entryMethod? hstarter) henter
  refine ⟨entry, result, store, steps, hprogram, hends, ?_⟩
  exact Session.runEntry_bridge (s := { program := p.module, limits := limits }) hstarter
    (by rw [hhost]; exact henter) (by rw [hhost]; exact hends)

/-- If a compiled program starts with a starter, every run of it ends, and unless steps run out
everything is given back in the end. The strings and a null fit in an array whose length has 31 bits. -/
theorem TranslationUnit.runEntry_cleansUp {unit : TranslationUnit} {name : String} {m : Module}
    {limits : Limits} {args : List String} (hcompile : unit.compile name = .ok m)
    (hentry : m.entryMethod?.map (·.name) = some EntryPoint.starterName)
    (hargs : args.length < 2 ^ 31 - 1) (hdepth : 1 ≤ limits.depth) :
    ∃ result s', ({ program := m, limits := limits } : Session).runEntry args = some (result, s') ∧
      ((∀ c n, result = .error (.crash c) → c.fault ≠ .stepLimitExceeded n) →
        s'.store.CleanedUp args.length) := by
  obtain ⟨entry, result, store, steps, hprogram, hends, hrun⟩ :=
    exists_ends args hcompile hentry hdepth
  refine ⟨_, _, hrun, fun hlimit => ?_⟩
  rcases EntryPoint.finally_started hprogram (by omega) _ hends with ⟨c, n, hc, hfault⟩ | hclean
  · dsimp only at hc
    subst hc
    exact absurd hfault (hlimit c n rfl)
  · exact hclean

/-- A program whose entry function writes over the strings that it gets and then divides by zero. -/
def TranslationUnit.careless : TranslationUnit where
  functions := [
    let argument := Expression.subscript .unknown (.identifier .unknown "argv")
    { specifiers := [.type .int]
      declarator := .mk [] (.function (.identifier "main") (some (.mk [
        .mk [.type .int] (some (.mk [] (.identifier "argc") .unknown)),
        .mk [.type .char] (some (.mk [[], []] (.identifier "argv") .unknown))] false))) .unknown
      declarations := []
      body := .compound .unknown [
        .expression .unknown (.assignment .unknown none (argument (.intLiteral .unknown 0))
          (argument (.intLiteral .unknown 1))),
        .ret .unknown (some (.binary .unknown (.arithmetic .div) (.identifier .unknown "argc")
          (.intLiteral .unknown 0)))]
      span := .unknown }]

/-- The program starts with a starter, and its run ends with the fault. -/
theorem TranslationUnit.compile_careless :
    (fun m : Module => (m.entryMethod?.map (·.name),
      (({ program := m, limits := ⟨100, 2⟩ } : Session).runEntry ["a"]).map (·.1))) <$>
        careless.compile "careless" =
      .ok (some EntryPoint.starterName, some (.error (.crash ⟨"main", 22, .divideByZero⟩))) := by
  cbv

/-- That program gives everything back when it faults. -/
theorem TranslationUnit.runEntry_careless : ∃ m result s', careless.compile "careless" = .ok m ∧
    ({ program := m, limits := ⟨100, 2⟩ } : Session).runEntry ["a"] = some (result, s') ∧
    result = .error (.crash ⟨"main", 22, .divideByZero⟩) ∧ s'.store.CleanedUp 1 := by
  obtain ⟨m, hcompile, hm⟩ := Except.map_eq_ok.1 compile_careless
  obtain ⟨hentry, hcrash⟩ := Prod.mk.inj hm
  obtain ⟨result, s', hrun, hclean⟩ := @runEntry_cleansUp careless "careless" m ⟨100, 2⟩ ["a"]
    hcompile hentry.symm (by decide) (by decide)
  rw [hrun] at hcrash
  obtain rfl := Option.some.inj hcrash
  refine ⟨m, _, s', hcompile, hrun, rfl, hclean ?_⟩
  rintro c n ⟨⟩
  nofun

/-- With so many strings that they and a null are too many for the length of an array, no array is
made for the entry function and nothing is pinned. The starter faults, and gives the copies back. -/
theorem TranslationUnit.runEntry_overlong {unit : TranslationUnit} {name : String} {m : Module}
    {limits : Limits} {args : List String} (hcompile : unit.compile name = .ok m)
    (hentry : m.entryMethod?.map (·.name) = some EntryPoint.starterName)
    (hargs : args.length + 1 = 2 ^ 31) (hdepth : 1 ≤ limits.depth) (hsteps : 14 ≤ limits.steps) :
    ∃ s', ({ program := m, limits := limits } : Session).runEntry args =
        some (.error (.crash EntryPoint.overlong), s') ∧
      s'.store.events = #[.argvAllocated, .argvFreed] ∧
      s'.store.stats = {
        argvAllocations := 1
        argvFrees := 1
        blocksAllocated := args.length
        blocksFreed := args.length } ∧ s'.store.heap.Clean := by
  obtain ⟨entry, result, store, steps, -, hends, hrun⟩ := exists_ends args hcompile hentry hdepth
  obtain ⟨o, ho, hresult, hclean, hstats, hevents⟩ := EntryPoint.eventually_started hargs hsteps
  obtain rfl := hends.unique ho
  obtain rfl : result = .error EntryPoint.overlong := hresult
  exact ⟨_, hrun, hevents, hstats, hclean⟩

/-- The longest list of strings whose length has 31 bits is too long for that program. -/
theorem TranslationUnit.runEntry_uncleaned : ∃ m s', careless.compile "careless" = .ok m ∧
    m.entryMethod?.map (·.name) = some EntryPoint.starterName ∧
    (List.replicate (2 ^ 31 - 1) "").length < 2 ^ 31 ∧
    ({ program := m, limits := ⟨100, 2⟩ } : Session).runEntry (List.replicate (2 ^ 31 - 1) "") =
      some (.error (.crash ⟨EntryPoint.starterName, 10, .indexOutOfRange (-2147483648) 0⟩), s') ∧
    ¬ s'.store.CleanedUp (List.replicate (2 ^ 31 - 1) "").length := by
  obtain ⟨m, hcompile, hm⟩ := Except.map_eq_ok.1 compile_careless
  obtain ⟨hentry, -⟩ := Prod.mk.inj hm
  have hlength : (List.replicate (2 ^ 31 - 1) "").length = 2 ^ 31 - 1 := List.length_replicate
  obtain ⟨s', hrun, hevents, -⟩ := @runEntry_overlong careless "careless" m ⟨100, 2⟩
    (List.replicate (2 ^ 31 - 1) "") hcompile hentry.symm (by rw [hlength]) (by decide) (by decide)
  refine ⟨m, s', hcompile, hentry.symm, by rw [hlength]; decide, hrun, fun hclean => ?_⟩
  have hfour := hclean.events
  rw [hevents] at hfour
  cases hfour

end ManagedC
