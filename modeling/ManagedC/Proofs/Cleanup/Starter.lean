import ManagedC.Proofs.Cleanup.Guests
import ManagedC.Proofs.Cleanup.NativeStrings

/-!
# What the starter gives back

A run of the starter, backwards: first what its handlers do, whether they are run by a jump or by a
crash, then the call of the entry function between them. Main statements: the outer handler gives the
native copies back (`EntryPoint.finally_freeing`), the inner one unpins the array that was pinned
(`EntryPoint.finally_unpinning`), and however the call of the entry function ends, both are run
(`EntryPoint.finally_called`).
-/

namespace ManagedC

/-- The pointers to native copies and the null at their end. -/
def pointerArray (n : Nat) : Array Value := (pointersTo 0 n ++ [Value.null]).toArray

theorem size_pointerArray (n : Nat) : (pointerArray n).size = n + 1 := by
  simp [pointerArray, pointersTo]

/-- The native copies of `n` strings are in use, the object `argv` is the array of pointers to them,
and each array has the given number of pins. -/
structure Heap.Holds (n argv : Nat) (pins : Nat → Nat) (h : Heap) : Prop where
  argv : h.objects[argv]? = some (.array .nativeString (pointerArray n) 0)
  /-- There are no other blocks. -/
  size : h.blocks.size = n
  blocks : ∀ id, id < n → ∃ bytes, h.blocks[id]? = some (.live bytes)
  pins : ∀ (id : Nat) element elements k,
    h.objects[id]? = some (.array element elements k) → k = pins id

/-- No block is in use and no array is pinned. -/
structure Heap.Clean (h : Heap) : Prop where
  blocks : h.liveBlocks = 0
  pins : ∀ id, h.isPinned id = false

namespace Heap.Holds

variable {h h' : Heap} {n argv : Nat} {pins : Nat → Nat}

/-- What calls that can do no harm leave of the native copies. -/
theorem changes {r : Reach} (hh : h.Holds n argv pins) (hc : Heap.Changes r h h')
    (hargv : ¬ r.places (.array argv)) : h'.Holds n argv pins where
  argv := (hc.outside argv hargv).trans hh.argv
  size := hc.blocks.trans hh.size
  blocks := by
    intro id hid
    obtain ⟨bytes, hbytes⟩ := hh.blocks id hid
    have hlive := hc.live id
    rw [hbytes] at hlive
    obtain ⟨block, hblock, hlive⟩ := Option.map_eq_some_iff.1 hlive
    cases block with
    | live bytes' => exact ⟨bytes', hblock⟩
    | freed => cases hlive
  pins := by
    intro id element elements k hk
    have hlt : id < h.objects.size := by
      rw [← hc.objects]
      exact (Array.getElem?_eq_some_iff.1 hk).1
    have hold := Array.getElem?_eq_getElem hlt
    cases ho : h.objects[id] with
    | string text =>
      rw [hc.strings id text (by rw [hold, ho])] at hk
      cases hk
    | array element' elements' k' =>
      rw [ho] at hold
      obtain ⟨elements'', hnew, -⟩ := hc.arrays id element' elements' k' hold
      rw [hnew] at hk
      cases hk
      exact hh.pins id _ _ _ hold

/-- An array other than that of the pointers gets other elements or pins. -/
theorem setArray {id k : Nat} {element : TargetType} {elements : Array Value}
    (hh : h.Holds n argv pins) (k' : Nat) (elements' : Array Value) (hid : argv ≠ id)
    (ho : h.objects[id]? = some (.array element elements k)) :
    Heap.Holds n argv (fun i => if i = id then k' else pins i)
      { h with objects := h.objects.setIfInBounds id (.array element elements' k') } where
  argv := (Array.getElem?_setIfInBounds_ne hid.symm).trans hh.argv
  size := hh.size
  blocks := hh.blocks
  pins := by
    intro i element'' elements'' k'' hk
    by_cases hne : id = i
    · subst hne
      have hlt := (Array.getElem?_eq_some_iff.1 ho).1
      rw [Array.getElem?_setIfInBounds_self_of_lt hlt] at hk
      cases hk
      exact (if_pos rfl).symm
    · rw [Array.getElem?_setIfInBounds_ne hne] at hk
      exact (hh.pins i _ _ _ hk).trans (if_neg (Ne.symm hne)).symm

/-- Native copies that are given back leave nothing behind if no array is pinned. -/
theorem clean (hh : h.Holds n argv fun _ => 0) (hobjects : h'.objects = h.objects)
    (hsize : h'.blocks.size = n) (hblocks : ∀ id : Nat, id < n → h'.blocks[id]? = some .freed) :
    h'.Clean where
  blocks := by
    unfold liveBlocks
    rw [List.countP_eq_zero]
    intro block hblock
    obtain ⟨id, hid⟩ := List.mem_iff_getElem?.1 hblock
    rw [Array.getElem?_toList] at hid
    have hlt := (Array.getElem?_eq_some_iff.1 hid).1
    rw [hblocks id (by omega)] at hid
    cases hid
    simp [Block.isLive]
  pins := by
    intro id
    unfold isPinned pins?
    rw [hobjects]
    cases ho : h.objects[id]? with
    | none => rfl
    | some o =>
      cases o with
      | string text => rfl
      | array element elements k =>
        rw [hh.pins id element elements k ho]
        rfl

end Heap.Holds

/-- A pinned variable that gets a value which is no pointer lets go of its array. -/
theorem Activation.yields_repin_unpin {s : Store} {old new : Value} {id : Nat} {heap : Heap}
    (hold : pinTarget? old = some id) (hnew : pinTarget? new = none)
    (h : s.heap.unpin id = .ok heap) : Yields (repin true old new) s ()
      ((({ s with heap := heap } : Store).count fun c => { c with unpins := c.unpins + 1 }).log
        .unpinned) := by
  unfold repin unpinOld pinNew
  rw [hold, hnew]
  refine Yields.bind_iff.2 ⟨(), _, ?_, Yields.pure_iff.2 ⟨rfl, rfl⟩⟩
  exact Yields.bind_iff.2 ⟨(), _, Access.yields_update.2 ⟨heap, h, rfl⟩,
    Yields.bind_iff.2 ⟨(), _, Access.yields_count.2 rfl, Access.yields_log.2 rfl⟩⟩

/-- A pinned variable that was empty pins the array that it gets a pointer into. -/
theorem Activation.yields_repin_pin {s : Store} {old new : Value} {id : Nat} {heap : Heap}
    (hold : pinTarget? old = none) (hnew : pinTarget? new = some id)
    (h : s.heap.pin id = .ok heap) : Yields (repin true old new) s ()
      ((({ s with heap := heap } : Store).count fun c => { c with pins := c.pins + 1 }).log
        .pinned) := by
  unfold repin unpinOld pinNew
  rw [hold, hnew]
  refine Yields.bind_iff.2 ⟨(), s, Yields.pure_iff.2 ⟨rfl, rfl⟩, ?_⟩
  exact Yields.bind_iff.2 ⟨(), _, Access.yields_update.2 ⟨heap, h, rfl⟩,
    Yields.bind_iff.2 ⟨(), _, Access.yields_count.2 rfl, Access.yields_log.2 rfl⟩⟩

namespace EntryPoint

open Progress (Finally)

/-- A call of the starter. -/
abbrev frame (entry : MethodRef) (arg : Value) (locals : Array Value) (stack : List Value)
    (pc : Nat) (pending : List Pending) : Activation :=
  ⟨bridge entry, bridgeRegions, #[arg], locals, stack, pc, pending⟩

/-- The region in which the native copies are in use. -/
def copied : Region := ⟨7, 33, 33, 36⟩

/-- The region in which the array for the entry function is pinned. -/
def pinned : Region := ⟨18, 28, 28, 32⟩

variable {program : Module} {limits : Limits} {post : CallResult → Store → Prop}
  {entry : MethodRef} {arg argc copy exit : Value} {n argv : Nat} {s t : Store}

/-- A call of the starter with no pointer into an array has nothing to let go of. -/
theorem close_frame {pin : Value} {stack : List Value} {pc : Nat} {pending : List Pending}
    (h : Activation.pinTarget? pin = none) : (frame entry arg #[argc, .object argv, copy, pin, exit]
      stack pc pending).close s = s.closed := by
  refine Activation.releasePins_eq_self fun p hp => ?_
  simp only [bridge, List.zip_cons_cons, List.mem_cons] at hp
  rcases hp with rfl | rfl | rfl | rfl | rfl | hp
  · exact .inl rfl
  · exact .inl rfl
  · exact .inl rfl
  · exact .inr h
  · exact .inl rfl
  · cases hp

theorem finally_end {pin : Value} {stack : List Value} {pc steps : Nat} {pending : List Pending}
    {result : CallResult} (h : Activation.pinTarget? pin = none) (hpost : post result s.closed) :
    Finally program limits post (Run.resume [] result
      ((frame entry arg #[argc, .object argv, copy, pin, exit] stack pc pending).close s)
      steps) := by
  rw [close_frame h]
  exact .done hpost

/-! ## The handlers -/

/-- The code of the outer handler gives the native copies back. -/
theorem exists_freed {pin : Value} {pending : List Pending} (hs : s.heap.Holds n argv fun _ => 0) :
    ∃ t : Store, t.heap.Clean ∧ t.stats = { s.stats with
        argvFrees := s.stats.argvFrees + 1, blocksFreed := s.stats.blocksFreed + n } ∧
      t.events = s.events.push .argvFreed ∧
      Activation.ExecutesAll 2
        (frame entry arg #[argc, .object argv, copy, pin, exit] [] 33 pending) s
        (frame entry arg #[argc, .object argv, copy, pin, exit] [] 35 pending) t := by
  obtain ⟨t, hfree, hobjects, hsize, hblocks, hstats, hevents⟩ :=
    Access.yields_freeArgv hs.argv fun id _ hid => hs.blocks id (by omega)
  have hclean : t.heap.Clean := by
    refine hs.clean hobjects (hsize.trans hs.size) fun id hid => ?_
    rw [hblocks, if_pos (by omega)]
  have hcall : Yields (Access.callHelper .freeArgv [.object argv]) s none t :=
    Yields.bind_iff.2 ⟨(), t, hfree, Yields.pure_iff.2 ⟨rfl, rfl⟩⟩
  refine ⟨t.log .argvFreed, hclean, hstats, by rw [← hevents]; rfl, ?_⟩
  refine .cons rfl rfl (.loadLocal rfl) ?_
  exact .cons rfl rfl (.callHelper (Nat.le_refl 1) hcall) .nil

/-- The outer handler gives the native copies back, and the call ends. -/
theorem finally_freeing {pin : Value} {steps : Nat} {completion : Completion}
    (hs : s.heap.Holds n argv fun _ => 0) (hpin : Activation.pinTarget? pin = none)
    (hcompletion : completion = .jump 36 ∨ ∃ c, completion = .fail c)
    (hpost : ∀ result t, t.heap.Clean → t.stats = { s.stats with
        argvFrees := s.stats.argvFrees + 1, blocksFreed := s.stats.blocksFreed + n } →
      t.events = s.events.push .argvFreed → post result t) :
    Finally program limits post (.more ⟨s, steps, frame entry arg
      #[argc, .object argv, copy, pin, exit] [] 33 [⟨33, [], completion⟩], []⟩) := by
  obtain ⟨t, hclean, hstats, hevents, hexecutes⟩ := exists_freed hs
  have hdone : ∀ result, post result t.closed := fun result => hpost result _ hclean hstats hevents
  refine .executes hexecutes fun steps => .step fun hlimit => ?_
  rcases hcompletion with rfl | ⟨c, rfl⟩
  · refine ⟨_, .jumpDone hlimit rfl rfl rfl rfl, ?_⟩
    refine .executed rfl rfl (.loadLocal rfl) (.step fun hlimit => ?_)
    refine ⟨_, .returned hlimit rfl (.inr ⟨nofun, _, _, rfl, rfl⟩) rfl, ?_⟩
    exact finally_end hpin (hdone _)
  · refine ⟨_, .crashDone hlimit rfl rfl rfl rfl, ?_⟩
    exact finally_end hpin (hdone _)

/-- The postcondition holds when both handlers have run on a store. -/
def Settles (post : CallResult → Store → Prop) (n : Nat) (s : Store) : Prop :=
  ∀ result t, t.heap.Clean → t.stats = { s.stats with
      unpins := s.stats.unpins + 1, argvFrees := s.stats.argvFrees + 1
      blocksFreed := s.stats.blocksFreed + n } →
    t.events = (s.events.push .unpinned).push .argvFreed → post result t

/-- The inner handler unpins the array, and then the outer one runs. -/
theorem finally_unpinning {id : Nat} {p : Pointer} {steps : Nat} {rest : List Region}
    {completion : Completion} {element : TargetType} {elements : Array Value}
    (hs : s.heap.Holds n argv fun i => if i = id then 1 else 0)
    (hid : s.heap.objects[id]? = some (.array element elements 1)) (hp : p.place = .array id)
    (hcompletion : rest = [] ∧ completion = .jump 32 ∨
      rest = [copied] ∧ ∃ c, completion = .fail c)
    (hpost : Settles post n s) :
    Finally program limits post (.more ⟨s, steps, frame entry arg
      #[argc, .object argv, copy, .pointer p, exit] [] 28 [⟨28, rest, completion⟩], []⟩) := by
  have hne : argv ≠ id := by
    rintro rfl
    have := hs.pins argv _ _ _ hs.argv
    simp at this
  have htarget : Activation.pinTarget? (.pointer p) = some id := by
    obtain ⟨place, offset, managed⟩ := p
    cases hp
    rfl
  let heap : Heap := { s.heap with
    objects := s.heap.objects.setIfInBounds id (.array element elements 0) }
  have hunpin : s.heap.unpin id = .ok heap :=
    Heap.changePins_eq_ok.2 ⟨element, elements, 1, hid, rfl⟩
  have hheap : heap.Holds n argv fun _ => 0 := by
    have hset := hs.setArray 0 elements hne hid
    have hpins : (fun i => if i = id then 0 else if i = id then 1 else 0) = fun _ => 0 := by
      funext i
      by_cases hi : i = id
      · rw [if_pos hi]
      · rw [if_neg hi, if_neg hi]
    rwa [hpins] at hset
  let t : Store := ((({ s with heap := heap } : Store).count fun c =>
    { c with unpins := c.unpins + 1 }).log .unpinned)
  have hstore : Yields (Activation.repin true (.pointer p) (.int 0)) s () t :=
    Activation.yields_repin_unpin htarget rfl hunpin
  have houter : ∀ (steps : Nat) (completion : Completion),
      completion = .jump 36 ∨ (∃ c, completion = .fail c) →
      Finally program limits post (.more ⟨t, steps, frame entry arg
        #[argc, .object argv, copy, .int 0, exit] [] 33 [⟨33, [], completion⟩], []⟩) :=
    fun steps completion hc => finally_freeing hheap rfl hc hpost
  refine .executed rfl rfl .constInt32 ?_
  refine .executed rfl rfl (.onTop rfl rfl rfl) ?_
  refine .executed rfl rfl (.storeLocal rfl rfl hstore) (.step fun hlimit => ?_)
  rcases hcompletion with ⟨rfl, rfl⟩ | ⟨rfl, c, rfl⟩
  · refine ⟨_, .jumpDone hlimit rfl rfl rfl rfl, .step fun hlimit => ?_⟩
    exact ⟨_, .left hlimit rfl rfl rfl, houter _ _ (.inl rfl)⟩
  · exact ⟨_, .nextHandler hlimit rfl rfl rfl, houter _ _ (.inr ⟨c, rfl⟩)⟩

/-! ## The call of the entry function -/

/-- What the entry function can reach: native memory and an array. -/
def lent (id : Nat) : Reach where
  objects := fun _ => False
  places
    | .native _ => True
    | .array object => object = id
  closed := fun _ h => h.elim

/-- A crash in the inner region runs the inner handler. -/
theorem finally_crashed {id pc : Nat} {p : Pointer} {steps : Nat} {c : Crash} {stack : List Value}
    {element : TargetType} {elements : Array Value} (hpc : pc = 25 ∨ pc = 26)
    (hs : s.heap.Holds n argv fun i => if i = id then 1 else 0)
    (hid : s.heap.objects[id]? = some (.array element elements 1)) (hp : p.place = .array id)
    (hpost : Settles post n s) :
    Finally program limits post (Run.raise s steps c (frame entry arg
      #[argc, .object argv, copy, .pointer p, exit] stack pc []) []) := by
  have hcovering : (frame entry arg #[argc, .object argv, copy, .pointer p, exit] stack pc
      []).covering = [pinned, copied] := by
    rcases hpc with rfl | rfl
    · rfl
    · rfl
  rw [Run.raise_of_covering_cons hcovering]
  exact finally_unpinning hs hid hp (.inr ⟨rfl, c, rfl⟩) hpost

/-- After the call of the entry function the exit code is kept, and both handlers run. -/
theorem finally_returned {id : Nat} {p : Pointer} {steps : Nat} {stack : List Value}
    {element : TargetType} {elements : Array Value}
    (hs : s.heap.Holds n argv fun i => if i = id then 1 else 0)
    (hid : s.heap.objects[id]? = some (.array element elements 1)) (hp : p.place = .array id)
    (hpost : Settles post n s) :
    Finally program limits post (.more ⟨s, steps, frame entry arg
      #[argc, .object argv, copy, .pointer p, exit] stack 26 [], []⟩) := by
  cases stack with
  | nil =>
    refine .step fun hlimit => ⟨_, .faulted hlimit rfl rfl rfl, ?_⟩
    exact finally_crashed (.inr rfl) hs hid hp hpost
  | cons v rest =>
    refine .executed rfl rfl (.storeLocal rfl rfl (Yields.pure_iff.2 ⟨rfl, rfl⟩)) ?_
    refine .step fun hlimit => ⟨_, .left hlimit rfl rfl rfl, ?_⟩
    exact finally_unpinning hs hid hp (.inl ⟨rfl, rfl⟩) hpost

/-- However the call of the entry function ends, both handlers run. -/
theorem finally_called {id : Nat} {p : Pointer} {k : Int64} {steps : Nat} {element : TargetType}
    {elements : Array Value} (hprogram : program.Hospitable)
    (hs : s.heap.Holds n argv fun i => if i = id then 1 else 0)
    (hid : s.heap.objects[id]? = some (.array element elements 1)) (hp : p.place = .array id)
    (hwithin : ∀ v ∈ elements, v.Within (lent id))
    (hpost : Settles post n s) :
    Finally program limits post (.more ⟨s, steps, frame entry arg
      #[argc, .object argv, copy, .pointer p, exit] [.pointer p.unmanaged, .int k] 25 [], []⟩) := by
  have hheap : s.heap.Within (lent id) := by
    rintro id' element' elements' pins rfl ho
    rw [hid] at ho
    cases ho
    exact hwithin
  have hne : argv ≠ id := by
    rintro rfl
    have := hs.pins argv _ _ _ hs.argv
    simp at this
  refine .step fun hlimit => ⟨_, Run.stepsTo_step _, ?_⟩
  rcases (Run.stepsTo_step _).of_call hlimit rfl with ⟨c, hc⟩ | ⟨m, callee, hm, henter, hmore⟩
  · rw [hc]
    exact finally_crashed (.inl rfl) hs hid hp hpost
  · rw [hmore]
    have harguments : ∀ v ∈ ([.pointer p.unmanaged, .int k] : List Value), v.Within (lent id) := by
      simp [Value.Within, lent, Pointer.unmanaged, hp]
    have hcallee := Activation.modest_or_restarted_of_enter
      (hprogram m (Module.mem_of_findMethod? hm))
      (fun v hv => harguments v (List.mem_of_mem_take (List.mem_reverse.1 hv))) henter
    refine Run.Hosted.finally (s := s) hprogram (fun _ h => h)
      ⟨hcallee, ⟨[], rfl, by simp⟩, hheap, .opened (.refl _ s)⟩ ?_
    intro result t steps ht _ _
    have hholds := hs.changes ht.heap hne
    obtain ⟨elements', hid', -⟩ := ht.heap.arrays id _ _ _ hid
    have hpost' : Settles post n t := by
      unfold Settles
      rw [ht.stats, ht.events]
      exact hpost
    match result with
    | .error c => exact finally_crashed (.inl rfl) hholds hid' hp hpost'
    | .ok none => exact finally_returned hholds hid' hp hpost'
    | .ok (some v) => exact finally_returned hholds hid' hp hpost'

end EntryPoint

end ManagedC
