import ManagedC.Proofs.Memory.Maintained
import ManagedC.Proofs.Run.Cells
import ManagedC.Proofs.Run.Leads

/-!
# What the machine conserves

In the midst of an instruction the counts, the log and the heap need not agree: a block is made before it
is counted, and something is counted before it is logged. `Store.Conserved` takes together what the
machine does in one go, and a property that outlives each of these changes outlives every instruction, with
an answer or a fault. There is one exception: a call of `freeArgv` that faults has been counted and is not
logged (`Run.freesInVain`). `Store.Lasting` adds the counter of calls. Main statement:
`Run.StepsTo.conserves`.
-/

namespace ManagedC

/-- The counts after something that is logged. -/
def Stats.tally (e : Event) (c : Stats) : Stats :=
  match e with
  | .argvAllocated => { c with argvAllocations := c.argvAllocations + 1 }
  | .pinned => { c with pins := c.pins + 1 }
  | .unpinned => { c with unpins := c.unpins + 1 }
  | .frameExitUnpinned => { c with frameExitUnpins := c.frameExitUnpins + 1 }
  | .argvFreed => { c with argvFrees := c.argvFrees + 1 }

/-- The store after something is counted and logged. -/
def Store.record (s : Store) (e : Event) : Store := (s.count (Stats.tally e)).log e

/-- The store after something is counted that is not logged. -/
def Store.tally (s : Store) (e : Event) : Store := s.count (Stats.tally e)

/-- The property outlives what the machine does to the store in one go. -/
structure Store.Conserved (I : Store → Prop) : Prop where
  /-- It does not depend on the objects. -/
  objects : ∀ s objects, I s → I { s with heap := { s.heap with objects := objects } }
  /-- Something is stored in a block in use. -/
  bytes : ∀ s id new, s.heap.Live id → I s → I { s with heap := s.heap.setBytes id new }
  made : ∀ s bytes, I s → I (({ s with heap := s.heap.addBlock bytes } : Store).count fun c =>
    { c with blocksAllocated := c.blocksAllocated + 1 })
  /-- A block in use is given back and counted. -/
  givenBack : ∀ s id, s.heap.Live id → I s → I (s.giveBack [id])
  /-- Something is counted and logged. -/
  recorded : ∀ s e, I s → I (s.record e)

/-- The property outlives the beginning and the end of calls too: it does not depend on the counter. -/
structure Store.Lasting (I : Store → Prop) : Prop extends Store.Conserved I where
  depth : ∀ s n, I s → I { s with depth := n }

/-- The next instruction calls `freeArgv` with an array, and the call faults. -/
def Run.freesInVain (limits : Limits) (r : Run) : Bool :=
  match r.current.instruction?, r.current.stack with
  | some (.callHelper .freeArgv), v :: _ =>
    r.steps < limits.steps && (v.asObject >>= r.store.heap.array).isOk &&
      !(Access.freeArgv v r.store).1.isOk
  | _, _ => false

/-- The store as far as the machine has come. -/
def Progress.store : Progress → Store
  | .more r => r.store
  | .done _ store _ => store

variable {I J : Store → Prop}

/-! ## Computations on the store -/

namespace Store.Conserved

variable {s : Store} {heap : Heap}

theorem changePins {object : Nat} {change : Nat → Nat} (hI : Conserved I) (hs : I s)
    (h : s.heap.changePins object change = .ok heap) : I { s with heap := heap } := by
  obtain ⟨element, elements, pins, -, rfl⟩ := Heap.changePins_eq_ok.1 h
  exact hI.objects s _ hs

theorem store {p : Pointer} {type : TargetType} {v : Value} (hI : Conserved I) (hs : I s)
    (h : s.heap.store p type v = .ok heap) : I { s with heap := heap } := by
  rcases Heap.store_cases h with ⟨object, element, elements, pins, index, -, rfl⟩ |
    ⟨id, bytes, start, width, n, ha, -, rfl⟩
  · exact hI.objects s _ hs
  · exact hI.bytes s id _ ⟨bytes, ha.block⟩ hs

theorem giveBack {ids : List Nat} (hI : Conserved I) (hnodup : ids.Nodup)
    (hlive : ∀ id ∈ ids, s.heap.Live id) (hs : I s) : I (s.giveBack ids) := by
  induction ids generalizing s with
  | nil => exact hs
  | cons id ids ih =>
    obtain ⟨hid, hids⟩ := List.forall_mem_cons.1 hlive
    obtain ⟨hnot, hnodup⟩ := List.nodup_cons.1 hnodup
    rw [giveBack_cons]
    refine ih hnodup (fun j hj => live_giveBack_single.2 ⟨?_, hids j hj⟩) (hI.givenBack s id hid hs)
    rintro rfl
    exact hnot hj

theorem withCopies (hI : Conserved I) (texts : List String) (hs : I s) : I (s.withCopies texts) := by
  induction texts generalizing s with
  | nil => simpa [Store.withCopies] using hs
  | cons text texts ih =>
    have hone := hI.made s (text.toUTF8.toList ++ [0]) hs
    have hsplit : s.withCopies (text :: texts) = Store.withCopies
        (({ s with heap := s.heap.addBlock (text.toUTF8.toList ++ [0]) } : Store).count fun c =>
          { c with blocksAllocated := c.blocksAllocated + 1 }) texts := by
      simp [Store.withCopies, Store.count, Heap.addBlock, Block.ofText, Nat.add_assoc, Nat.add_comm 1]
    rw [hsplit]
    exact ih hone

/-- The host adds objects. -/
theorem hostArguments (hI : Conserved I) (args : List String) (hs : I s) :
    I (Session.hostArguments args s).2 := by
  rw [Session.hostArguments_eq]
  exact hI.objects s _ hs

theorem maintains_newObject (hI : Conserved I) (o : HeapObject) :
    Access.Maintains I (Access.newObject o) := fun s hs => hI.objects s _ hs

theorem maintains_freeTarget (hI : Conserved I) (v : Value) :
    Access.Maintains I (Access.freeTarget v) := by
  intro s hs
  cases hv : v.block? with
  | none =>
    rw [Access.freeTarget_of_none hv]
    exact hs
  | some id =>
    obtain ⟨offset, managed, rfl⟩ := Value.block?_eq_some.1 hv
    rcases hr : Access.freeTarget (.pointer ⟨.native id, offset, managed⟩) s with ⟨f | u, t⟩
    · rcases Fails.bind_iff.1 hr with hf | ⟨_, u, -, hf⟩
      · obtain ⟨-, rfl⟩ := Access.fails_update.1 hf
        exact hs
      · exact absurd hf Fails.not_modify
    · obtain ⟨hlive, rfl⟩ := (Access.yields_freeTarget hv).1 hr
      exact hI.givenBack s id hlive hs

theorem maintains_arrayCopy (hI : Conserved I) (v w : Value) (length : Int64) :
    Access.Maintains I (Access.arrayCopy v w length) := by
  intro s hs
  rcases hr : Access.arrayCopy v w length s with ⟨f | u, t⟩
  · obtain rfl := Access.clean_arrayCopy v w length s f t hr
    exact hs
  · obtain ⟨source, destination, element, items, targets, pins, pins', -, -, -, -, -, -, -, rfl⟩ :=
      Access.yields_arrayCopy_iff.1 hr
    exact hI.objects s _ hs

/-- A pin that is changed, counted and logged. -/
theorem maintains_repinned (hI : Conserved I) (object : Nat) (change : Nat → Nat) (e : Event) :
    Access.Maintains I (Access.update (·.changePins object change) >>= fun _ =>
      Access.count (Stats.tally e) >>= fun _ => Access.log e) := by
  intro s hs
  rw [bind_apply]
  rcases hr : Access.update (·.changePins object change) s with ⟨f | u, t⟩
  · obtain ⟨-, rfl⟩ := Access.fails_update.1 hr
    exact hs
  · obtain ⟨heap, hheap, rfl⟩ := Access.yields_update.1 hr
    exact hI.recorded _ e (hI.changePins hs hheap)

end Store.Conserved

/-- A call of `freeArgv` faults before it has found an array, and leaves no trace, or after it was
counted. -/
theorem Access.fails_freeArgv_cases {v : Value} {s t : Store} {f : Fault}
    (h : Fails (freeArgv v) s f t) :
    ((v.asObject >>= s.heap.array).isOk = false ∧ t = s) ∨
      (v.asObject >>= s.heap.array).isOk = true ∧
        ∃ items : List Value, Fails (items.forM freeTarget) (s.tally .argvFreed) f t := by
  rcases Fails.bind_iff.1 h with hv | ⟨id, u, hid, hrest⟩
  · obtain ⟨hobject, rfl⟩ := fails_ofExcept.1 hv
    rw [hobject]
    exact .inl ⟨rfl, rfl⟩
  obtain ⟨hobject, rfl⟩ := yields_ofExcept.1 hid
  rw [hobject]
  show ((u.heap.array id).isOk = false ∧ t = u) ∨ (u.heap.array id).isOk = true ∧ _
  rcases Fails.bind_iff.1 hrest with hread | ⟨⟨element, items⟩, u', hread, hcounting⟩
  · obtain ⟨harray, rfl⟩ := fails_read.1 hread
    rw [harray]
    exact .inl ⟨rfl, rfl⟩
  obtain ⟨harray, rfl⟩ := yields_read.1 hread
  rw [harray]
  rcases Fails.bind_iff.1 hcounting with hcount | ⟨_, w, hcount, hfree⟩
  · exact absurd hcount Fails.not_modify
  · obtain rfl := yields_count.1 hcount
    exact .inr ⟨rfl, items.toList, hfree⟩

/-! ## Instructions -/

namespace Activation

open Access Store.Conserved

variable {a : Activation} {s t : Store}

theorem maintains_storeLocal (hI : Store.Conserved I) (a : Activation) (slot : UInt16) (v : Value) :
    Maintains I (a.storeLocal slot v) := by
  cases hdeclared : a.method.locals[slot.toNat]? with
  | none =>
    unfold storeLocal
    rw [hdeclared]
    exact .throw _
  | some declared =>
    rw [storeLocal_eq hdeclared]
    refine Maintains.bind ?_ fun _ => .pure _
    unfold repin unpinOld pinNew
    split
    · refine Maintains.bind ?unpin fun _ => ?pin
      case unpin =>
        split
        · exact maintains_repinned hI _ _ .unpinned
        · exact .pure _
      case pin =>
        split
        · exact maintains_repinned hI _ _ .pinned
        · exact .pure _
    · exact .pure _

theorem maintains_makeArray (hI : Store.Conserved I) (element : TargetType) (v : Value) :
    Maintains I (makeArray element v) := by
  unfold makeArray
  refine (Maintains.ofExcept _).bind fun _ => ?_
  split
  · exact .throw_bind _ _
  · exact (maintains_newObject hI _).bind fun _ => .pure _

/-- An instruction that calls no service maintains what is conserved. -/
theorem maintains_execute (hI : Store.Conserved I) (a : Activation) (i : Instruction)
    (hi : ∀ helper, i ≠ .callHelper helper) : Maintains I (a.execute i) := by
  have hpure : ∀ x : Except Fault Activation,
      Maintains I (Access.ofExcept x >>= fun b => pure b.advance) := by
    intro x
    exact (Maintains.ofExcept x).bind fun _ => .pure _
  cases i with
  | nop | constInt32 | constInt64 | loadNull | call | ret | leave | endFinally => exact .pure _
  | neg | not | convInt32 | convInt64 | convNative | convAddress | binary | compare => exact hpure _
  | loadArgument | loadLocal =>
    simp only [execute]
    split
    · exact .pure _
    · exact .throw _
  | storeArgument =>
    refine (Maintains.ofExcept _).bind fun _ => ?_
    dsimp only
    split
    · exact .pure _
    · exact .throw _
  | storeLocal =>
    exact (Maintains.ofExcept _).bind fun _ =>
      (maintains_storeLocal hI _ _ _).bind fun _ => .pure _
  | dup | pop => exact (Maintains.ofExcept _).bind fun _ => .pure _
  | branch => exact (Maintains.ofExcept _).bind fun _ => .pure _
  | branchIf =>
    refine (Maintains.ofExcept _).bind fun _ => ?_
    dsimp only
    split
    · exact (Maintains.ofExcept _).bind fun _ => .pure _
    · exact .pure _
  | callHelper helper => exact absurd rfl (hi helper)
  | newArray =>
    exact (Maintains.ofExcept _).bind fun _ =>
      (maintains_makeArray hI _ _).bind fun _ => .pure _
  | arrayLength =>
    exact (Maintains.ofExcept _).bind fun _ => (Maintains.ofExcept _).bind fun _ =>
      (Maintains.read _).bind fun _ => .pure _
  | elementAddress =>
    exact (Maintains.ofExcept _).bind fun _ => (Maintains.ofExcept _).bind fun _ =>
      (Maintains.ofExcept _).bind fun _ => (Maintains.ofExcept _).bind fun _ =>
        (Maintains.read _).bind fun _ => .pure _
  | load => exact Maintains.get.bind fun _ => hpure _
  | store =>
    refine (Maintains.ofExcept _).bind fun _ => (Maintains.ofExcept _).bind fun _ =>
      (Maintains.ofExcept _).bind fun _ => Maintains.bind (.update ?_) fun _ => .pure _
    intro s heap hs hstore
    exact hI.store hs hstore

/-- A call of a service faults before the service begins or in it. -/
theorem fails_callHelper {helper : Helper} {f : Fault}
    (h : Fails (a.execute (.callHelper helper)) s f t) :
    (a.stack.length < helper.arity ∧ t = s) ∨ helper.arity ≤ a.stack.length ∧
      Fails (callHelper helper (a.stack.take helper.arity).reverse) s f t := by
  simp only [execute] at h
  by_cases hlength : a.stack.length < helper.arity
  · have hnone : a.popMany? helper.arity = none := if_pos hlength
    rw [hnone] at h
    exact .inl ⟨hlength, (Fails.throw_iff.1 h).2⟩
  · have hle := Nat.le_of_not_lt hlength
    rw [popMany?_eq_some.2 ⟨hle, rfl, rfl⟩] at h
    refine .inr ⟨hle, ?_⟩
    rcases Fails.bind_iff.1 h with hcall | ⟨result, u, -, hrest⟩
    · exact hcall
    · split at hrest
      · rcases Fails.bind_iff.1 hrest with hlog | ⟨_, _, -, hpure⟩
        · exact absurd hlog Fails.not_modify
        · exact absurd hpure Fails.not_pure
      · exact absurd hrest Fails.not_pure

/-- A call of a service that does not fault keeps what is conserved. -/
theorem conserved_afterHelper (hI : Store.Conserved I) {helper : Helper} {arguments : List Value}
    {result : Option Value} (hs : I s) (h : Yields (callHelper helper arguments) s result t) :
    I (t.afterHelper helper) := by
  cases helper with
  | argsToArgv =>
    obtain ⟨v, a, rfl, rfl, ha⟩ := yields_call_argsToArgv.1 h
    obtain ⟨items, texts, -, -, -, rfl⟩ := yields_argsToArgv_iff.1 ha
    exact hI.objects _ _ (hI.recorded _ .argvAllocated (hI.withCopies texts hs))
  | freeArgv =>
    obtain ⟨v, rfl, rfl, hv⟩ := yields_call_freeArgv.1 h
    obtain ⟨element, items, -, hnodup, hlive, rfl⟩ := yields_freeArgv_iff.1 hv
    have hrecorded : I ((s.record .argvFreed).giveBack (blocksOf items)) :=
      hI.giveBack hnodup hlive (hI.recorded s .argvFreed hs)
    exact hrecorded
  | arrayCopy =>
    obtain ⟨v, w, n, rfl, rfl, hv⟩ := yields_call_arrayCopy.1 h
    have ht := maintains_arrayCopy hI v w n s hs
    rw [hv] at ht
    exact ht

/-- Letting go of pins maintains what is conserved. -/
theorem conserved_releasePins (hI : Store.Conserved I) (a : Activation) (hs : I s) :
    I (a.releasePins s) := by
  unfold releasePins
  generalize a.method.locals.toList.zip a.locals.toList = slots
  induction slots generalizing s with
  | nil => exact hs
  | cons slot slots ih =>
    apply ih
    dsimp only
    split
    · split
      · rename_i heap hunpin
        exact hI.recorded _ .frameExitUnpinned (hI.changePins hs hunpin)
      · exact hs
    · exact hs

theorem lasting_close (hI : Store.Lasting I) (a : Activation) (hs : I s) : I (a.close s) :=
  conserved_releasePins hI.toConserved a (hI.depth s _ hs)

end Activation

/-! ## Steps -/

namespace Run

open Access Store.Conserved

variable {program : Module} {limits : Limits} {r : Run} {s : Store} {steps : Nat}

theorem freesInVain_iff : r.freesInVain limits = true ↔ ∃ v rest,
    r.current.instruction? = some (.callHelper .freeArgv) ∧ r.current.stack = v :: rest ∧
      r.steps < limits.steps ∧ (v.asObject >>= r.store.heap.array).isOk = true ∧
        (freeArgv v r.store).1.isOk = false := by
  unfold freesInVain
  split
  · rename_i v rest hi hstack
    simp [hi, hstack, and_assoc]
  · rename_i hother
    refine ⟨nofun, ?_⟩
    rintro ⟨v, rest, hi, hstack, -⟩
    exact absurd hstack (hother v rest hi)

/-- A call of `freeArgv` that faults in vain was counted and gave back some of the blocks. -/
theorem conserved_of_freesInVain (hJ : Store.Conserved J)
    (hvain : ∀ s, I s → J (s.tally .argvFreed)) (hr : I r.store) {i : Instruction}
    (hi : r.current.instruction? = some i) (h : r.freesInVain limits = true) :
    J (r.current.execute i r.store).2 := by
  obtain ⟨v, rest, hi', hstack, -, harray, hfaults⟩ := freesInVain_iff.1 h
  cases hi.symm.trans hi'
  rcases hresult : r.current.execute (.callHelper .freeArgv) r.store with ⟨f | b, t⟩
  · rcases Activation.fails_callHelper hresult with ⟨hshort, -⟩ | ⟨-, hcall⟩
    · rw [hstack] at hshort
      exact absurd hshort (by simp [Helper.arity])
    · rw [hstack] at hcall
      rcases fails_freeArgv_cases (fails_call_freeArgv.1 hcall) with ⟨hnone, -⟩ | ⟨-, items, hfree⟩
      · rw [harray] at hnone
        cases hnone
      · have ht := Maintains.forM (maintains_freeTarget hJ) items _ (hvain r.store hr)
        rw [hfree] at ht
        exact ht
  · cases Activation.executes_of_yields rfl hresult with
    | onTop hf | onTop2 hf => cases hf
    | callHelper _ hcall =>
      rw [hstack] at hcall
      obtain ⟨_, hv, -, hyields⟩ := yields_call_freeArgv.1 hcall
      cases hv
      have hyields : freeArgv v r.store = _ := hyields
      rw [hyields] at hfaults
      cases hfaults

/-- Otherwise an instruction keeps what is conserved. -/
theorem conserved_of_not_freesInVain (hI : Store.Conserved I) (hr : I r.store) {i : Instruction}
    (hlimit : r.steps < limits.steps) (hi : r.current.instruction? = some i)
    (h : r.freesInVain limits = false) : I (r.current.execute i r.store).2 := by
  by_cases hservice : ∀ helper, i ≠ .callHelper helper
  · exact Activation.maintains_execute hI r.current i hservice r.store hr
  obtain ⟨helper, rfl⟩ : ∃ helper, i = .callHelper helper := by
    by_contra hnone
    exact hservice fun helper heq => hnone ⟨helper, heq⟩
  rcases hresult : r.current.execute (.callHelper helper) r.store with ⟨f | b, t⟩
  · rcases Activation.fails_callHelper hresult with ⟨-, rfl⟩ | ⟨hlength, hcall⟩
    · exact hr
    cases helper with
    | argsToArgv =>
      obtain rfl := clean_call_argsToArgv _ _ _ _ hcall
      exact hr
    | arrayCopy =>
      obtain rfl := clean_call_arrayCopy _ _ _ _ hcall
      exact hr
    | freeArgv =>
      obtain ⟨v, rest, hstack⟩ := List.exists_cons_of_length_pos hlength
      rw [hstack] at hcall
      have hfree : Fails (freeArgv v) r.store f t := fails_call_freeArgv.1 hcall
      rcases fails_freeArgv_cases hfree with ⟨-, rfl⟩ | ⟨harray, -⟩
      · exact hr
      · have hfaults : (freeArgv v r.store).1.isOk = false := by
          have hfree : freeArgv v r.store = _ := hfree
          rw [hfree]
          rfl
        rw [freesInVain_iff.2 ⟨v, rest, hi, hstack, hlimit, harray, hfaults⟩] at h
        cases h
  · cases Activation.executes_of_yields rfl hresult with
    | onTop hf | onTop2 hf => cases hf
    | callHelper _ hcall => exact Activation.conserved_afterHelper hI hr hcall

theorem lasting_raise (hI : Store.Lasting I) {c : Crash} {callers : List Activation}
    {a : Activation} (hs : I s) : I (raise s steps c a callers).store := by
  induction callers generalizing a s with
  | nil =>
    unfold raise
    split
    · exact hs
    · exact Activation.lasting_close hI a hs
  | cons caller callers ih =>
    unfold raise
    split
    · exact hs
    · exact ih (Activation.lasting_close hI a hs)

theorem lasting_resume (hI : Store.Lasting I) {result : CallResult}
    {callers : List Activation} (hs : I s) : I (resume callers result s steps).store := by
  unfold resume
  split
  · exact hs
  · exact hs
  · exact hs
  · exact lasting_raise hI hs

/-- A step keeps what is conserved, but if it calls `freeArgv` in vain, then what is left of it is what is
left when that call was counted. -/
theorem StepsTo.conserves {p : Progress} (h : r.StepsTo program limits p) (hI : Store.Lasting I)
    (hJ : Store.Lasting J) (hvain : ∀ s, I s → J (s.tally .argvFreed)) (hr : I r.store) :
    if r.freesInVain limits then J p.store else I p.store := by
  have hidle : (∀ i, r.steps < limits.steps → r.current.instruction? = some i → i.isControl = true) →
      r.freesInVain limits = false := by
    intro hcontrol
    by_contra hfrees
    obtain ⟨v, rest, hi, -, hlimit, -⟩ := freesInVain_iff.1 (by simpa using hfrees)
    cases hcontrol _ hlimit hi
  have hstays : ∀ {i}, r.current.instruction? = some i → i.isControl = true →
      r.freesInVain limits = false := by
    intro i hi hcontrol
    refine hidle fun j _ hj => ?_
    cases hi.symm.trans hj
    exact hcontrol
  cases h with
  | limit hlimit =>
    rw [hidle fun _ hlt _ => absurd hlt (Nat.not_lt_of_le hlimit)]
    exact lasting_raise hI hr
  | fellOff _ hnone =>
    rw [hidle fun _ _ hi => by rw [hnone] at hi; cases hi]
    exact lasting_raise hI hr
  | callMissing _ hi | callShort _ hi | callRefused _ hi | retEmpty _ hi | leaveUnbound _ hi =>
    rw [hstays hi rfl]
    exact lasting_raise hI hr
  | returned _ hi | handlerReturned _ hi | stray _ hi | crashDone _ hi =>
    rw [hstays hi rfl]
    exact lasting_resume hI (Activation.lasting_close hI r.current hr)
  | callEntered _ hi =>
    rw [hstays hi rfl]
    exact hI.depth _ _ hr
  | jumped _ hi | left _ hi | nextHandler _ hi | jumpDone _ hi =>
    rw [hstays hi rfl]
    exact hr
  | @executed i b t hlimit hi hcontrol hexecutes =>
    have hyields : r.current.execute i r.store = _ := Activation.yields_of_executes hexecutes
    split
    · rename_i hfrees
      have ht := conserved_of_freesInVain hJ.toConserved hvain hr hi hfrees
      rw [hyields] at ht
      exact ht
    · rename_i hfrees
      have ht := conserved_of_not_freesInVain hI.toConserved hr hlimit hi (by simpa using hfrees)
      rw [hyields] at ht
      exact ht
  | @faulted i f t hlimit hi hcontrol hfails =>
    have hfails : r.current.execute i r.store = _ := hfails
    split
    · rename_i hfrees
      have ht := conserved_of_freesInVain hJ.toConserved hvain hr hi hfrees
      rw [hfails] at ht
      exact lasting_raise hJ ht
    · rename_i hfrees
      have ht := conserved_of_not_freesInVain hI.toConserved hr hlimit hi (by simpa using hfrees)
      rw [hfails] at ht
      exact lasting_raise hI ht

end Run

end ManagedC
