import ManagedC.Proofs.Run.Straight
import ManagedC.Proofs.Startup.Copies
import ManagedC.Proofs.Startup.Unwritten

/-!
# Subscripts

The code of `array[index]` is that of the array, that of the index, and a piece of straight-line code
that moves the pointer and loads what it then leads to (`Expression.SubscriptCode`). Main statements:
what is loaded ends up on the stack, and what cannot be loaded is a fault
(`Expression.SubscriptCode.loads`, `Expression.SubscriptCode.faults`).
-/

namespace ManagedC

/-- The code of a subscript leads over two scopes: in the first the code of the array ends, in the
second that of the index. The method has the code that then turns the two values into one. -/
structure Expression.SubscriptCode (M : Method) (element : CType) (size : Int32) (stored : TargetType)
    (array index : Expression) (s u v t : Scope) : Prop where
  array : Emission.Code s (.value array (.pointer element)) u
  index : ∃ type, Emission.Code u (.value index type) v
  /-- The method has the code of the array. -/
  grown : u.assembler.method.Extends M
  /-- How the elements are kept in memory. -/
  represented : element.target = .ok stored
  /-- The pointer is moved, and what it leads to is loaded. -/
  code : M.HasCode v.offset (scaling size ++ [.binary .add] ++ [.load stored])
  offset : t.offset = v.offset + ((scaling size).length + 2)

/-- The code of a subscript of a pointer. -/
theorem Emission.Code.of_subscript {span : Span} {array index : Expression} {s t : Scope}
    {type element : CType} (h : Code s (.value (.subscript span array index) type) t)
    (harray : ∀ {arrayType u}, Code s (.value array arrayType) u → arrayType = .pointer element) :
    type = element ∧ ∃ u indexType v size stored, Code s (.value array (.pointer element)) u ∧
      Code u (.value index indexType) v ∧ (CType.pointer element).Steps size ∧
      element.target = .ok stored ∧
      t = v.append [] (scaling size ++ [.binary .add] ++ [.load stored]) := by
  cases h with
  | load h hstored =>
    cases h with
    | subscript ha hi hcode _ =>
      obtain rfl := harray ha
      generalize hresult : CType.pointer type = result at hcode
      cases hcode with
      | movePointer size _ _ hsteps =>
        cases hresult
        exact ⟨rfl, _, _, _, size, _, ha, hi, hsteps, hstored, Scope.append_append _ _ _ _ _⟩
      | integers hl | stepsFirst _ _ hl => cases hl

/-- A method that has the code of a subscript of a pointer has its parts. -/
theorem Expression.subscriptCode {span : Span} {array index : Expression} {s t : Scope}
    {type element : CType} {M : Method}
    (h : Emission.Code s (.value (.subscript span array index) type) t)
    (harray : ∀ {arrayType u}, Emission.Code s (.value array arrayType) u →
      arrayType = .pointer element)
    (hM : t.assembler.method.Extends M) : type = element ∧ ∃ u v size stored,
      (CType.pointer element).Steps size ∧ SubscriptCode M element size stored array index s u v t := by
  obtain ⟨rfl, u, indexType, v, size, stored, ha, hi, hsteps, hs, rfl⟩ := h.of_subscript harray
  have hplain : ∀ i ∈ scaling size ++ [.binary .add] ++ [.load stored], i.isPlain = true := by
    grind [scaling, Instruction.isPlain]
  have hgrown : u.assembler.method.Extends M :=
    hi.emits.extends ((Scope.emits_append v _ hplain).method.trans hM)
  refine ⟨rfl, u, v, size, stored, hsteps, ha, ⟨indexType, hi⟩, hgrown, hs,
    Scope.hasCode_append hM, ?_⟩
  rw [Scope.offset_append, List.length_append, List.length_append]
  rfl

/-- A pointer to pointers moves by their size. -/
theorem CType.steps_pointer {target : CType} {size : Int32}
    (h : (CType.pointer (.pointer target)).Steps size) : size = 8 := by
  obtain ⟨n, hn, -, rfl⟩ := h
  cases hn
  rfl

/-- A pointer to characters moves by one byte. -/
theorem CType.steps_character {kind : PrimitiveType} {size : Int32} (hkind : kind.IsCharacter)
    (h : (CType.pointer (.primitive kind)).Steps size) : size = 1 := by
  obtain ⟨n, hn, -, rfl⟩ := h
  rcases hkind with rfl | rfl | rfl
  all_goals
    cases hn
    rfl

namespace Run

/-- A run comes to a fault in the call in progress. -/
def Faults (program : Module) (limits : Limits) (r : Run) (f : Fault) : Prop :=
  ∃ r', r.Leads program limits r' ∧ r'.callers = r.callers ∧
    r'.current.method = r.current.method ∧
    r'.step program limits = ({ r' with steps := r'.steps + 1 } : Run).fault f

end Run

/-- What cannot be loaded is a fault of the instruction that loads it. -/
theorem Activation.fails_load {a : Activation} {s : Store} {p : Pointer} {rest : List Value}
    {type : TargetType} {f : Fault} (ha : a.stack = .pointer p :: rest)
    (hload : s.heap.load p type = .error f) : Fails (a.execute (.load type)) s f s := by
  have htop : a.mapTop (fun v => do s.heap.load (← v.asPointer) type) = .error f := by
    unfold mapTop pop
    rw [ha]
    show (s.heap.load p type >>= fun w => _) = _
    rw [hload]
    rfl
  refine Fails.bind_iff.2 (.inr ⟨s, s, Yields.get_iff.2 ⟨rfl, rfl⟩, Fails.bind_iff.2 (.inl ?_)⟩)
  rw [htop]
  rfl

namespace Expression.SubscriptCode

variable {M : Method} {element : CType} {size : Int32} {stored : TargetType}
  {array index : Expression} {s u v t : Scope} {program : Module} {limits : Limits} {r : Run}
  {n : Int64} {p : Pointer} {rest : List Value}

/-- Nothing is stored by the code between the index and the value. -/
theorem store_notMem (size : Int32) (stored type : TargetType) :
    .store type ∉ scaling size ++ [Instruction.binary .add] ++ [.load stored] := by
  unfold scaling
  split <;> simp

/-- What a pointer leads to after it is moved is loaded. -/
theorem loads (h : SubscriptCode M element size stored array index s u v t)
    (hcallers : r.callers ≠ []) (hmethod : r.current.method = M) (hpc : r.current.pc = v.offset)
    (hstack : r.current.stack = .int n :: .pointer p :: rest) {w : Value}
    (hload : r.store.heap.load (p.move (n * size.toInt64)) stored = .ok w)
    (hlimit : r.steps + ((scaling size).length + 2) ≤ limits.steps) :
    r.Unwritten program limits { r with
      steps := r.steps + ((scaling size).length + 2)
      current := { r.current with pc := t.offset, stack := w :: rest } } := by
  obtain ⟨store, steps, a, callers⟩ := r
  dsimp only at hcallers hmethod hpc hstack hload hlimit
  have hfollows : a.Follows store (scaling size ++ [.binary .add] ++ [.load stored])
      { a with pc := t.offset, stack := w :: rest } := by
    refine (Activation.follows_movePointer hstack).append ?_
    rw [h.offset, ← hpc]
    exact .cons rfl (.load rfl rfl hload) rfl .nil
  have hlength : (scaling size ++ [Instruction.binary .add] ++ [Instruction.load stored]).length =
      (scaling size).length + 2 := by
    simp
  have hcode := h.code
  rw [← hpc, ← hmethod] at hcode
  rw [← hlength] at hlimit ⊢
  refine .follows hfollows hcode hlimit fun _ b i hi hinstruction => ⟨hcallers, fun type hstore => ?_⟩
  have heq : i = .store type := Option.some.inj (hinstruction.symm.trans hstore)
  exact store_notMem size stored type (heq ▸ hi)

/-- What cannot be loaded is a fault. -/
theorem faults (h : SubscriptCode M element size stored array index s u v t)
    (hmethod : r.current.method = M) (hpc : r.current.pc = v.offset)
    (hstack : r.current.stack = .int n :: .pointer p :: rest) {f : Fault}
    (hload : r.store.heap.load (p.move (n * size.toInt64)) stored = .error f)
    (hlimit : r.steps + ((scaling size).length + 2) ≤ limits.steps) :
    r.Faults program limits f := by
  obtain ⟨store, steps, a, callers⟩ := r
  dsimp only at hmethod hpc hstack hload hlimit
  have hfollows := @Activation.follows_movePointer store a rest n p size hstack
  have hcode := h.code
  rw [← hpc, ← hmethod] at hcode
  have hlength : (scaling size ++ [Instruction.binary .add]).length = (scaling size).length + 1 := by
    simp
  have hleads : Run.Leads program limits ⟨store, steps, a, callers⟩ _ :=
    .follows hfollows hcode.left (by omega) fun _ _ _ _ _ => trivial
  refine ⟨_, hleads, rfl, rfl, ?_⟩
  rw [hlength]
  exact (Run.StepsTo.faulted (by dsimp only; omega) (hlength ▸ hcode.right.head) rfl
    (Activation.fails_load rfl hload)).step_eq

end Expression.SubscriptCode

/-! ## Arguments of a program -/

/-- The value of a variable in a call. -/
def Variable.valueIn (x : Variable) (a : Activation) : Option Value :=
  match x.slot with
  | .parameter index => a.arguments[index.toNat]?
  | .local index => a.locals[index.toNat]?

theorem Variable.executes_load {x : Variable} {a : Activation} {v : Value} {s : Store}
    (h : x.valueIn a = some v) : a.Executes s x.load (a.push v).advance s := by
  obtain ⟨_ | _, type⟩ := x
  · exact .loadArgument h
  · exact .loadLocal h

theorem Variable.isControl_load (x : Variable) :
    x.load.isControl = false ∧ ∀ type, x.load ≠ .store type := by
  obtain ⟨_ | _, type⟩ := x
  · exact ⟨rfl, nofun⟩
  · exact ⟨rfl, nofun⟩

/-- The code that was emitted between two scopes is run from its start to its end and pushes a value.
No memory is written meanwhile. -/
structure Run.Pushes (program : Module) (limits : Limits) (s t : Scope) (r r' : Run) (v : Value) :
    Prop where
  unwritten : r.Unwritten program limits r'
  start : r.current.pc = s.offset
  finish : r'.current.pc = t.offset
  method : r'.current.method = r.current.method
  stack : r'.current.stack = v :: r.current.stack
  callers : r'.callers = r.callers

/-- The number fits 32 bits. -/
def IsIndex (n : Int64) : Prop := -2 ^ 31 ≤ n.toInt ∧ n.toInt < 2 ^ 31

/-- What the code of `x[i][j]` does from a run on, where `x` is a list of strings and has the value
`list`: between the scopes `u` and `w` is the code behind that of `i`, and between `v` and `t` that
behind the code of `j`. -/
def Run.ReadsElement (program : Module) (limits : Limits) (args : List String) (first : Nat)
    (list : Value) (kind : PrimitiveType) (x : Variable) (s u w v t : Scope) (r : Run) : Prop :=
  ∃ a, r.Pushes program limits s (s.append [] [x.load]) a list ∧
    ∀ b n, a.Pushes program limits (s.append [] [x.load]) u b (.int n) → IsIndex n →
      b.steps + 6 ≤ limits.steps →
      (n.toInt < 0 ∨ args.length < n.toInt → ∃ f, b.Faults program limits f) ∧
      (n.toInt = args.length → ∃ c, r.Pushes program limits s w c .null) ∧
      ∀ (k : Nat) (text : String), n.toInt = k → args[k]? = some text →
        ∃ c, r.Pushes program limits s w c (.pointer ⟨.native (first + k), 0, false⟩) ∧
          ∀ d m, c.Pushes program limits w v d (.int m) → IsIndex m → d.steps + 3 ≤ limits.steps →
            (∀ (l : Nat) (byte : UInt8), m.toInt = l → (Heap.bytesWithEnd text)[l]? = some byte →
              ∃ e, r.Pushes program limits s t e (.int (kind.ofByte byte))) ∧
            (m.toInt < 0 ∨ (Heap.bytesWithEnd text).length ≤ m.toInt →
              ∃ f, d.Faults program limits f)

/-- The steps of an index, in bytes. -/
theorem toInt_steps {n : Int64} (hn : IsIndex n) : ((0 : Int64) + n * (8 : Int32).toInt64).toInt =
    n.toInt * 8 := by
  have hmul : (n * (8 : Int32).toInt64).toInt = n.toInt * 8 := by
    rw [Int64.toInt_mul]
    exact Int.bmod_eq_of_le (by have := hn.1; show _ ≤ n.toInt * 8; omega)
      (by have := hn.2; show n.toInt * 8 < _; omega)
  rw [Int64.zero_add, hmul]

theorem toInt_bytes (n : Int64) : ((0 : Int64) + n * (1 : Int32).toInt64).toInt = n.toInt := by
  have hone : n * (1 : Int32).toInt64 = n := Int64.mul_one n
  rw [hone, Int64.zero_add]

variable {program : Module} {limits : Limits} {r a b c : Run} {s t u v w : Scope}

/-- The value of a subscript is pushed after those of its parts. -/
theorem Run.Pushes.subscript {M : Method} {element : CType} {size : Int32} {stored : TargetType}
    {array index : Expression} {n : Int64} {p : Pointer} {value : Value}
    (h : Expression.SubscriptCode M element size stored array index s u v t)
    (hmethod : r.current.method = M) (hcallers : r.callers ≠ [])
    (harray : r.Pushes program limits s u a (.pointer p))
    (hindex : a.Pushes program limits u v b (.int n))
    (hload : b.store.heap.load (p.move (n * size.toInt64)) stored = .ok value)
    (hlimit : b.steps + ((scaling size).length + 2) ≤ limits.steps) :
    ∃ c, r.Pushes program limits s t c value ∧ c.store = b.store := by
  have hcallers' : b.callers = r.callers := hindex.callers.trans harray.callers
  have hmethod' : b.current.method = r.current.method := hindex.method.trans harray.method
  have hleads : b.Unwritten program limits _ :=
    h.loads (hcallers' ▸ hcallers) (hmethod'.trans hmethod) hindex.finish
      (hindex.stack.trans (congrArg _ harray.stack)) hload hlimit
  exact ⟨_, ⟨harray.unwritten.trans (hindex.unwritten.trans hleads), harray.start, rfl, hmethod', rfl,
    hcallers'⟩, rfl⟩

/-- A subscript that leads nowhere is a fault. -/
theorem Run.Pushes.faults {M : Method} {element : CType} {size : Int32} {stored : TargetType}
    {array index : Expression} {n : Int64} {p : Pointer} {f : Fault}
    (h : Expression.SubscriptCode M element size stored array index s u v t)
    (hmethod : r.current.method = M) (harray : r.Pushes program limits s u a (.pointer p))
    (hindex : a.Pushes program limits u v b (.int n))
    (hload : b.store.heap.load (p.move (n * size.toInt64)) stored = .error f)
    (hlimit : b.steps + ((scaling size).length + 2) ≤ limits.steps) : b.Faults program limits f :=
  h.faults ((hindex.method.trans harray.method).trans hmethod) hindex.finish
    (hindex.stack.trans (congrArg _ harray.stack)) hload hlimit

/-- A variable is pushed. -/
theorem Run.pushes_variable {M : Method} {x : Variable} {value : Value}
    (hcode : M.HasCode s.offset [x.load]) (hcallers : r.callers ≠ []) (hmethod : r.current.method = M)
    (hpc : r.current.pc = s.offset) (hx : x.valueIn r.current = some value)
    (hlimit : r.steps < limits.steps) :
    ∃ a, r.Pushes program limits s (s.append [] [x.load]) a value := by
  have hinstruction : r.current.instruction? = some x.load := by
    unfold Activation.instruction?
    rw [hmethod, hpc]
    exact hcode.head
  obtain ⟨hcontrol, hstore⟩ := x.isControl_load
  have hreads : r.Reads := by
    refine ⟨hcallers, fun type heq => hstore type ?_⟩
    exact Option.some.inj (hinstruction.symm.trans heq)
  refine ⟨_, .single hreads (.executed hlimit hinstruction hcontrol (x.executes_load hx)), hpc, ?_,
    rfl, rfl, rfl⟩
  show r.current.pc + 1 = _
  rw [Scope.offset_append, hpc]
  rfl

/-- The code of `x[i][j]` reads characters of strings, as long as `x` is a list of them and no memory
is written. -/
theorem Expression.readsElement {span span' span'' : Span} {name : String} {i j : Expression}
    {type : CType} {M : Method} {x : Variable} {kind : PrimitiveType} (hkind : kind.IsCharacter)
    (hx : s.findVariable? name = some x) (hxtype : x.type = .pointer (.pointer (.primitive kind)))
    (h : Emission.Code s
      (.value (.subscript span (.subscript span' (.identifier span'' name) i) j) type) t)
    (hM : t.assembler.method.Extends M) : ∃ u w v,
      (∃ type, Emission.Code (s.append [] [x.load]) (.value i type) u) ∧
      (∃ type, Emission.Code w (.value j type) v) ∧
      ∀ {program : Module} {limits : Limits} {args : List String} {first id : Nat} {r : Run},
        r.callers ≠ [] → r.current.method = M → r.current.pc = s.offset →
        x.valueIn r.current = some (.pointer ⟨.array id, 0, false⟩) →
        (∀ r', r.Unwritten program limits r' → r'.store.heap.Lists args first id 1) →
        r.steps < limits.steps →
        r.ReadsElement program limits args first (.pointer ⟨.array id, 0, false⟩) kind x s u w v t := by
  have hlist : ∀ {arrayType u}, Emission.Code s (.value (.identifier span'' name) arrayType) u →
      arrayType = .pointer (.pointer (.primitive kind)) ∧ u = s.append [] [x.load] := by
    intro arrayType u h
    cases h with
    | identifier hx' =>
      obtain rfl := Option.some.inj (hx.symm.trans hx')
      exact ⟨hxtype, rfl⟩
    | load h => cases h
  have hslot : ∀ {arrayType u},
      Emission.Code s (.value (.subscript span' (.identifier span'' name) i) arrayType) u →
      arrayType = .pointer (.primitive kind) :=
    fun h => (h.of_subscript fun h => (hlist h).1).1
  obtain ⟨rfl, w, v, size, stored, hsize, hbyte⟩ := subscriptCode h hslot hM
  obtain ⟨-, u', u, size', stored', hsize', hpointer⟩ := subscriptCode hbyte.array
    (fun h => (hlist h).1) hbyte.grown
  obtain ⟨-, rfl⟩ := hlist hpointer.array
  obtain rfl := CType.steps_pointer hsize'
  obtain rfl := CType.steps_character hkind hsize
  obtain rfl : stored = kind.target := (Except.ok.inj hbyte.represented).symm
  refine ⟨u, w, v, hpointer.index, hbyte.index, ?_⟩
  intro program limits args first id r hcallers hmethod hpc hvalue hlists hlimit
  have hpushes : ∃ a, r.Pushes program limits s _ a _ :=
    Run.pushes_variable (Scope.hasCode_append hpointer.grown) hcallers hmethod hpc hvalue hlimit
  obtain ⟨a, ha⟩ := hpushes
  refine ⟨a, ha, fun b n hb hn hlimit => ?_⟩
  have hlist := hlists b (ha.unwritten.trans hb.unwritten)
  have hoffset := toInt_steps hn
  refine ⟨fun hout => ?_, fun hend => ?_, fun k text hk htext => ?_⟩
  · rcases hout with hbelow | hbeyond
    · exact ⟨_, ha.faults hpointer hmethod hb (hlist.load_below Nat.one_pos _ hoffset hbelow) hlimit⟩
    · exact ⟨_, ha.faults hpointer hmethod hb (hlist.load_beyond Nat.one_pos _ hoffset hbeyond) hlimit⟩
  · have hload := @hlist.load _ _ _ _ _ stored' _ _ Nat.one_pos (hoffset.trans (congrArg (· * 8) hend))
      (Nat.le_refl _)
    rw [if_neg (Nat.lt_irrefl _)] at hload
    obtain ⟨c, hc, -⟩ := ha.subscript hpointer hmethod hcallers hb hload hlimit
    exact ⟨c, hc⟩
  · obtain ⟨hlt, -⟩ := List.getElem?_eq_some_iff.1 htext
    have hload := @hlist.load _ _ _ _ _ stored' _ _ Nat.one_pos (hoffset.trans (congrArg (· * 8) hk))
      (Nat.le_of_lt hlt)
    rw [if_pos hlt] at hload
    obtain ⟨c, hc, -⟩ := ha.subscript hpointer hmethod hcallers hb hload hlimit
    refine ⟨c, hc, fun d m hd hm hlimit => ?_⟩
    have hblock := (hlists d (hc.unwritten.trans hd.unwritten)).copies k text htext
    refine ⟨fun l byte hl hbyte' => ?_, fun hout => ?_⟩
    · have hload := Heap.load_byte hblock hkind ((toInt_bytes m).trans hl) hbyte'
      obtain ⟨e, he, -⟩ := hc.subscript hbyte hmethod hcallers hd hload hlimit
      exact ⟨e, he⟩
    · rw [← toInt_bytes m] at hout
      exact ⟨_, hc.faults hbyte hmethod hd (Heap.load_outOfText hblock hkind hout) hlimit⟩

end ManagedC
