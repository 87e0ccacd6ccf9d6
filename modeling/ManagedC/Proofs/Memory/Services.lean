import ManagedC.Proofs.Cleanup.NativeStrings
import ManagedC.Proofs.Memory.Freed

/-!
# What the services do exactly

Each service succeeds on exactly the arguments that are of use to it, and what it does then is known of
every object and block: `argsToArgv` adds copies of strings (`Store.CopiesStrings`), `freeArgv` gives blocks
back, each of them once (`Store.FreesBlocks`), and `arrayCopy` replaces the first elements of an array
(`Store.CopiesElements`). Main statement: `Access.callHelper_exact`.
-/

namespace ManagedC

/-! ## What the services do -/

namespace Store

/-- There is a new block for each text, with its bytes and a zero, and a new array of pointers to them that
ends with a null. This is counted, and nothing else has changed. -/
structure Copies (s : Store) (texts : List String) (t : Store) : Prop where
  objects : t.heap.objects = s.heap.objects.push (.array (.pointer .uint8)
    (pointersTo s.heap.blocks.size texts.length ++ [Value.null]).toArray 0)
  oldBlocks : ∀ id < s.heap.blocks.size, t.heap.blocks[id]? = s.heap.blocks[id]?
  newBlocks : ∀ k, t.heap.blocks[s.heap.blocks.size + k]? =
    texts[k]?.map fun text => .live (text.toUTF8.toList ++ [0])
  stats : t.stats = { s.stats with
    argvAllocations := s.stats.argvAllocations + 1
    blocksAllocated := s.stats.blocksAllocated + texts.length }
  events : t.events = s.events

/-- The blocks are given back. This is counted, and nothing else has changed. -/
structure Frees (s : Store) (ids : List Nat) (t : Store) : Prop where
  objects : t.heap.objects = s.heap.objects
  blocks : ∀ id : Nat, t.heap.blocks[id]? = if id ∈ ids then some .freed else s.heap.blocks[id]?
  stats : t.stats = { s.stats with
    argvFrees := s.stats.argvFrees + 1
    blocksFreed := s.stats.blocksFreed + ids.length }
  events : t.events = s.events

/-- The first elements of an array are replaced. Nothing else has changed. -/
structure Overwrites (s : Store) (destination : Value) (n : Nat) (items : Array Value) (t : Store) :
    Prop where
  others : ∀ id : Nat, destination ≠ .object id → t.heap.objects[id]? = s.heap.objects[id]?
  elements : ∃ id element targets targets' pins, destination = .object id ∧
    s.heap.objects[id]? = some (.array element targets pins) ∧
    t.heap.objects[id]? = some (.array element targets' pins) ∧
    ∀ i : Nat, targets'[i]? = if i < n then items[i]? else targets[i]?
  blocks : t.heap.blocks = s.heap.blocks
  stats : t.stats = s.stats
  events : t.events = s.events

end Store

/-! ## What is exact about them -/

namespace Store

open Access (callHelper)

variable (s : Store) (arguments : List Value)

/-- `ArgsToArgv` copies the strings of an array. -/
structure CopiesStrings : Prop where
  /-- It succeeds on an array of strings and on nothing else. -/
  succeeds : (∃ r t, Yields (callHelper .argsToArgv arguments) s r t) ↔
    ∃ v items texts, arguments = [v] ∧ s.heap.IsArray v .string items ∧
      s.heap.Texts items.toList texts
  /-- The result is the new array. -/
  effect : ∀ r t, Yields (callHelper .argsToArgv arguments) s r t →
    ∃ v items texts, arguments = [v] ∧ s.heap.IsArray v .string items ∧
      s.heap.Texts items.toList texts ∧ r = some (.object s.heap.objects.size) ∧ s.Copies texts t
  /-- If it fails, nothing has happened. -/
  failure : ∀ f t, Fails (callHelper .argsToArgv arguments) s f t → t = s

/-- `FreeArgv` gives back the blocks that the elements of an array lead to. -/
structure FreesBlocks : Prop where
  /-- It succeeds if they are different blocks in use, and otherwise not. -/
  succeeds : (∃ r t, Yields (callHelper .freeArgv arguments) s r t) ↔
    ∃ v element items, arguments = [v] ∧ s.heap.IsArray v element items ∧ (blocksOf items).Nodup ∧
      ∀ id ∈ blocksOf items, s.heap.Live id
  /-- There is no result. -/
  effect : ∀ r t, Yields (callHelper .freeArgv arguments) s r t → r = none ∧
    ∃ v element items, arguments = [v] ∧ s.heap.IsArray v element items ∧ s.Frees (blocksOf items) t

/-- `FreeArgv` undoes `ArgsToArgv`: then as many blocks are in use as before. Once more it is a fault, unless
there were no strings. -/
def FreesCopies : Prop :=
  ∀ r t, Yields (callHelper .argsToArgv arguments) s (some r) t →
    ∃ u, Yields (callHelper .freeArgv [r]) t none u ∧ u.heap.liveBlocks = s.heap.liveBlocks ∧
      ((∃ id w, Fails (callHelper .freeArgv [r]) u (.doubleFree id) w) ↔
        ∃ v items, arguments = [v] ∧ s.heap.IsArray v .string items ∧ 0 < items.size)

/-- `ArrayCopy` copies the first elements of an array over those of another, or of the same. -/
structure CopiesElements : Prop where
  /-- It succeeds if their elements have the same type and there are so many, and otherwise not. -/
  succeeds : (∃ r t, Yields (callHelper .arrayCopy arguments) s r t) ↔
    ∃ source destination n element items targets, arguments = [source, destination, .int n] ∧
      s.heap.IsArray source element items ∧ s.heap.IsArray destination element targets ∧
      0 ≤ n.toInt ∧ n.toInt ≤ items.size ∧ n.toInt ≤ targets.size
  /-- There is no result. -/
  effect : ∀ r t, Yields (callHelper .arrayCopy arguments) s r t → r = none ∧
    ∃ source destination n element items, arguments = [source, destination, .int n] ∧
      s.heap.IsArray source element items ∧ s.Overwrites destination n.toInt.toNat items t
  /-- If it fails, nothing has happened. -/
  failure : ∀ f t, Fails (callHelper .arrayCopy arguments) s f t → t = s

end Store

/-! ## Copies of strings -/

namespace Store

variable {s t : Store} {ids : List Nat} {id : Nat}

theorem copies_withArgv (s : Store) (texts : List String) : s.Copies texts (s.withArgv texts) where
  objects := rfl
  oldBlocks id hid := Array.getElem?_append_left hid
  newBlocks k := by
    show (s.heap.blocks ++ (texts.map Block.ofText).toArray)[s.heap.blocks.size + k]? = _
    rw [Array.getElem?_append_right (Nat.le_add_right _ _), Nat.add_sub_cancel_left,
      List.getElem?_toArray, List.getElem?_map]
    rfl
  stats := rfl
  events := rfl

theorem liveBlocks_withArgv (s : Store) (texts : List String) :
    (s.withArgv texts).heap.liveBlocks = s.heap.liveBlocks + texts.length := by
  have hall : (texts.map Block.ofText).countP Block.isLive = texts.length := by
    rw [List.countP_map]
    exact List.countP_eq_length.2 fun _ _ => rfl
  show (s.heap.blocks ++ (texts.map Block.ofText).toArray).toList.countP Block.isLive = _
  rw [Array.toList_append, List.countP_append, hall]
  rfl

theorem isArray_withArgv (s : Store) (texts : List String) :
    (s.withArgv texts).heap.IsArray (.object s.heap.objects.size) (.pointer .uint8)
      (pointersTo s.heap.blocks.size texts.length ++ [Value.null]).toArray := by
  refine ⟨_, 0, rfl, ?_⟩
  rw [(s.copies_withArgv texts).objects, Array.getElem?_push_size]

theorem live_withArgv {texts : List String} :
    ∀ id ∈ List.range' s.heap.blocks.size texts.length, (s.withArgv texts).heap.Live id := by
  intro id hid
  obtain ⟨hle, hlt⟩ := List.mem_range'_1.1 hid
  obtain ⟨k, rfl⟩ := Nat.exists_eq_add_of_le hle
  have hk : k < texts.length := Nat.lt_of_add_lt_add_left hlt
  refine ⟨texts[k].toUTF8.toList ++ [0], ?_⟩
  rw [(s.copies_withArgv texts).newBlocks, List.getElem?_eq_getElem hk]
  rfl

end Store

namespace Access

open Yields

variable {s t : Store} {v : Value}

/-! ## Blocks that were given back -/

/-- A block that was given back cannot be given back as the first one. -/
theorem fails_freeArgv {element : TargetType} {items : Array Value} {id : Nat} {ids : List Nat}
    (harray : s.heap.IsArray v element items) (hids : blocksOf items = id :: ids)
    (hfreed : s.heap.Freed id) : ∃ t, Fails (freeArgv v) s (.doubleFree id) t := by
  obtain ⟨array, pins, rfl, harray⟩ := harray
  have hfirst : ∀ (values : List Value) (u : Store), values.filterMap Value.block? = id :: ids →
      u.heap.Freed id → Fails (values.forM freeTarget) u (.doubleFree id) u := by
    intro values u hvalues hu
    induction values with
    | nil => cases hvalues
    | cons v values ih =>
      refine Fails.bind_iff.2 ?_
      cases hv : v.block? with
      | none =>
        rw [List.filterMap_cons_none hv] at hvalues
        rw [freeTarget_of_none hv]
        exact .inr ⟨(), u, pure_iff.2 ⟨rfl, rfl⟩, ih hvalues⟩
      | some j =>
        rw [List.filterMap_cons_some hv] at hvalues
        cases hvalues
        obtain ⟨offset, managed, rfl⟩ := Value.block?_eq_some.1 hv
        refine .inl (Fails.bind_iff.2 (.inl (fails_update.2 ⟨?_, rfl⟩)))
        unfold Heap.free
        rw [show u.heap.blocks[id]? = some .freed from hu]
        rfl
  refine ⟨s.count fun c => { c with argvFrees := c.argvFrees + 1 }, ?_⟩
  refine Fails.bind_iff.2 (.inr ⟨array, s, yields_ofExcept.2 ⟨rfl, rfl⟩, ?_⟩)
  refine Fails.bind_iff.2 (.inr ⟨_, s, yields_read.2 ⟨Heap.array_eq_ok.2 ⟨pins, harray⟩, rfl⟩, ?_⟩)
  exact Fails.bind_iff.2 (.inr ⟨(), _, yields_count.2 rfl, hfirst _ _ hids hfreed⟩)

/-- If all blocks were given back, to give them back is a fault, unless there are none. -/
theorem doubleFree_iff {element : TargetType} {items : Array Value}
    (harray : s.heap.IsArray v element items) (hfreed : ∀ id ∈ blocksOf items, s.heap.Freed id) :
    (∃ id t, Fails (freeArgv v) s (.doubleFree id) t) ↔ blocksOf items ≠ [] := by
  constructor
  · rintro ⟨id, t, hfails⟩ hnone
    have hyields := yields_freeArgv_iff.2 ⟨element, items, harray, by rw [hnone]; exact List.nodup_nil,
      by rw [hnone]; exact List.forall_mem_nil _, rfl⟩
    unfold Fails at hfails
    rw [hyields] at hfails
    cases hfails
  · intro hsome
    obtain ⟨id, ids, hids⟩ := List.exists_cons_of_ne_nil hsome
    obtain ⟨t, ht⟩ := fails_freeArgv harray hids (hfreed id (by rw [hids]; exact List.mem_cons_self))
    exact ⟨id, t, ht⟩

end Access

namespace Store

open Access

variable {s t : Store} {arguments : List Value}

theorem copiesStrings (s : Store) (arguments : List Value) : s.CopiesStrings arguments where
  succeeds := by
    constructor
    · rintro ⟨r, t, h⟩
      obtain ⟨v, a, rfl, rfl, ha⟩ := yields_call_argsToArgv.1 h
      obtain ⟨items, texts, harray, htexts, -, -⟩ := yields_argsToArgv_iff.1 ha
      exact ⟨v, items, texts, rfl, harray, htexts⟩
    · rintro ⟨v, items, texts, rfl, harray, htexts⟩
      exact ⟨_, _, yields_call_argsToArgv.2 ⟨v, _, rfl, rfl,
        yields_argsToArgv_iff.2 ⟨items, texts, harray, htexts, rfl, rfl⟩⟩⟩
  effect r t h := by
    obtain ⟨v, a, rfl, rfl, ha⟩ := yields_call_argsToArgv.1 h
    obtain ⟨items, texts, harray, htexts, rfl, rfl⟩ := yields_argsToArgv_iff.1 ha
    exact ⟨v, items, texts, rfl, harray, htexts, rfl, s.copies_withArgv texts⟩
  failure := clean_call_argsToArgv arguments s

theorem freesBlocks (s : Store) (arguments : List Value) : s.FreesBlocks arguments where
  succeeds := by
    constructor
    · rintro ⟨r, t, h⟩
      obtain ⟨v, rfl, rfl, ha⟩ := yields_call_freeArgv.1 h
      obtain ⟨element, items, harray, hnodup, hlive, -⟩ := yields_freeArgv_iff.1 ha
      exact ⟨v, element, items, rfl, harray, hnodup, hlive⟩
    · rintro ⟨v, element, items, rfl, harray, hnodup, hlive⟩
      exact ⟨_, _, yields_call_freeArgv.2 ⟨v, rfl, rfl,
        yields_freeArgv_iff.2 ⟨element, items, harray, hnodup, hlive, rfl⟩⟩⟩
  effect r t h := by
    obtain ⟨v, rfl, rfl, ha⟩ := yields_call_freeArgv.1 h
    obtain ⟨element, items, harray, -, hlive, rfl⟩ := yields_freeArgv_iff.1 ha
    refine ⟨rfl, v, element, items, rfl, harray, rfl, fun id => ?_, rfl, rfl⟩
    exact blocks_giveBack (fun id hid => lt_size_of_live (hlive id hid)) id

/-- The copies that were made can be given back. -/
theorem yields_freeArgv_withArgv (s : Store) (texts : List String) :
    Yields (freeArgv (.object s.heap.objects.size)) (s.withArgv texts) ()
      (((s.withArgv texts).count fun c => { c with argvFrees := c.argvFrees + 1 }).giveBack
        (List.range' s.heap.blocks.size texts.length)) := by
  refine yields_freeArgv_iff.2 ⟨_, _, s.isArray_withArgv texts, ?_⟩
  rw [blocksOf_pointersTo]
  exact ⟨List.nodup_range', live_withArgv, rfl⟩

theorem freesCopies (s : Store) (arguments : List Value) : s.FreesCopies arguments := by
  intro r t h
  obtain ⟨v, a, rfl, hr, ha⟩ := yields_call_argsToArgv.1 h
  cases hr
  obtain ⟨items, texts, harray, htexts, rfl, rfl⟩ := yields_argsToArgv_iff.1 ha
  have hfree := s.yields_freeArgv_withArgv texts
  refine ⟨_, yields_call_freeArgv.2 ⟨_, rfl, rfl, hfree⟩, ?_, ?_⟩
  · have hmade := s.liveBlocks_withArgv texts
    have hlive : ∀ id ∈ List.range' s.heap.blocks.size texts.length, (s.withArgv texts).heap.Live id :=
      live_withArgv
    have hfreed := liveBlocks_giveBack (s := (s.withArgv texts).count fun c =>
      { c with argvFrees := c.argvFrees + 1 }) List.nodup_range' hlive
    rw [List.length_range'] at hfreed
    exact Nat.add_right_cancel (hfreed.trans hmade)
  · have hagain := doubleFree_iff (s := ((s.withArgv texts).count fun c =>
      { c with argvFrees := c.argvFrees + 1 }).giveBack (List.range' s.heap.blocks.size texts.length))
      (s.isArray_withArgv texts) (by
        rw [blocksOf_pointersTo]
        intro id hid
        exact (blocks_giveBack (fun j hj => lt_size_of_live (live_withArgv j hj)) id).trans
          (if_pos hid))
    simp only [fails_call_freeArgv, hagain, blocksOf_pointersTo, ne_eq, List.range'_eq_nil_iff]
    have hlength : items.size = texts.length := htexts.length_eq
    constructor
    · intro hsome
      exact ⟨v, items, rfl, harray, by omega⟩
    · rintro ⟨_, items', h, harray', hpos⟩ hnone
      cases h
      have hsame : items' = items := (harray'.unique harray).2
      rw [hsame] at hpos
      omega

theorem copiesElements (s : Store) (arguments : List Value) : s.CopiesElements arguments where
  succeeds := by
    constructor
    · rintro ⟨r, t, h⟩
      obtain ⟨v, w, n, rfl, rfl, ha⟩ := yields_call_arrayCopy.1 h
      obtain ⟨source, destination, element, items, targets, pins, pins', rfl, rfl, hitems, htargets,
        hpos, hsize, hsize', -⟩ := yields_arrayCopy_iff.1 ha
      exact ⟨_, _, n, element, items, targets, rfl, ⟨source, pins, rfl, hitems⟩,
        ⟨destination, pins', rfl, htargets⟩, hpos, by omega, by omega⟩
    · rintro ⟨_, _, n, element, items, targets, rfl, ⟨source, pins, rfl, hitems⟩,
        ⟨destination, pins', rfl, htargets⟩, hpos, hsize, hsize'⟩
      exact ⟨none, _, yields_call_arrayCopy.2 ⟨_, _, n, rfl, rfl, yields_arrayCopy_iff.2
        ⟨source, destination, element, items, targets, pins, pins', rfl, rfl, hitems, htargets, hpos,
          by omega, by omega, rfl⟩⟩⟩
  effect r t h := by
    obtain ⟨v, w, n, rfl, rfl, ha⟩ := yields_call_arrayCopy.1 h
    obtain ⟨source, destination, element, items, targets, pins, pins', rfl, rfl, hitems, htargets,
      hpos, hsize, hsize', rfl⟩ := yields_arrayCopy_iff.1 ha
    refine ⟨rfl, _, _, n, element, items, rfl, ⟨source, pins, rfl, hitems⟩, ?_⟩
    exact
      { others := by
          intro id hid
          refine Array.getElem?_setIfInBounds_ne fun hsame => hid ?_
          rw [hsame]
        elements := by
          refine ⟨destination, element, targets, _, pins', rfl, htargets,
            Array.getElem?_setIfInBounds_self_of_lt (Array.getElem?_eq_some_iff.1 htargets).1,
            getElem?_overwrite hsize hsize'⟩
        blocks := rfl
        stats := rfl
        events := rfl }
  failure := clean_call_arrayCopy arguments s

end Store

namespace Access

/-- The services succeed on exactly the arguments that are of use to them and do exactly what they are for;
those that fail before anything has happened leave the store as it was. -/
theorem callHelper_exact (s : Store) (arguments : List Value) :
    s.CopiesStrings arguments ∧ s.FreesBlocks arguments ∧ s.FreesCopies arguments ∧
      s.CopiesElements arguments :=
  ⟨s.copiesStrings arguments, s.freesBlocks arguments, s.freesCopies arguments,
    s.copiesElements arguments⟩

end Access

end ManagedC
