import ManagedC.Proofs.Run.Services

/-!
# Native copies of strings

What the services of the machine do when nothing goes wrong: `argsToArgv` adds a block for each
string and an array of pointers to the blocks (`Access.yields_argsToArgv`), `freeArgv` gives exactly
these blocks back (`Access.yields_freeArgv`), and `arrayCopy` makes an array equal to another one of
its size (`Access.yields_arrayCopy`).
-/

namespace ManagedC

/-- The block with the native copy of a text. -/
def Block.ofText (text : String) : Block := .live (text.toUTF8.toList ++ [0])

/-- Pointers to the starts of consecutive blocks. -/
def pointersTo (first count : Nat) : List Value :=
  (List.range' first count).map fun id => .pointer ⟨.native id, 0, false⟩

/-- The store with native copies of texts. -/
def Store.withCopies (s : Store) (texts : List String) : Store :=
  { s with
    heap := { s.heap with blocks := s.heap.blocks ++ (texts.map Block.ofText).toArray }
    stats := { s.stats with blocksAllocated := s.stats.blocksAllocated + texts.length } }

/-- The store with native copies of texts and an array of pointers to them. -/
def Store.withArgv (s : Store) (texts : List String) : Store :=
  { s with
    heap := (s.withCopies texts).heap.addObject (.array (.pointer .uint8)
      (pointersTo s.heap.blocks.size texts.length ++ [Value.null]).toArray 0)
    stats := { (s.withCopies texts).stats with argvAllocations := s.stats.argvAllocations + 1 } }

theorem blocksOf_pointersTo (first count : Nat) :
    blocksOf (pointersTo first count ++ [Value.null]).toArray = List.range' first count := by
  unfold blocksOf pointersTo
  rw [List.toList_toArray, List.filterMap_append, List.filterMap_map]
  simp [Value.block?, Function.comp_def]

namespace Access

open Yields

variable {s t : Store} {v : Value}

/-! ## Making copies -/

/-- References to strings lead to the texts of the strings. -/
theorem yields_texts {ids : List Nat} {ts : List String} (hlength : ids.length = ts.length)
    (h : ∀ p ∈ ids.zip ts, s.heap.objects[p.1]? = some (.string p.2)) :
    Yields (texts (ids.map .object)) s ts s := by
  refine yields_texts_iff.2 ⟨?_, rfl⟩
  rw [Heap.Texts, List.forall₂_map_left_iff, List.forall₂_iff_zip]
  exact ⟨hlength, fun hmem => ⟨_, rfl, h _ hmem⟩⟩

theorem yields_nativeCopy (text : String) (s : Store) : Yields (nativeCopy text) s
    (.pointer ⟨.native s.heap.blocks.size, 0, false⟩) (s.withCopies [text]) := by
  unfold nativeCopy newBlock
  simp only [bind_iff, get_iff, modify_iff, pure_iff, yields_count]
  refine ⟨_, _, ⟨_, _, ⟨rfl, rfl⟩, (), _, rfl, rfl, rfl⟩, (), _, rfl, rfl, ?_⟩
  simp [Store.withCopies, Store.count, Heap.addBlock, Block.ofText]

theorem yields_nativeCopies (ts : List String) (s : Store) : Yields (ts.mapM nativeCopy) s
    (pointersTo s.heap.blocks.size ts.length) (s.withCopies ts) := by
  induction ts generalizing s with
  | nil => exact pure_iff.2 ⟨rfl, by simp [Store.withCopies]⟩
  | cons text ts ih =>
    have hrest := ih (s.withCopies [text])
    rw [List.mapM_cons]
    refine bind_iff.2 ⟨_, _, yields_nativeCopy text s, bind_iff.2 ⟨_, _, hrest, pure_iff.2 ⟨?_, ?_⟩⟩⟩
    · simp [pointersTo, Store.withCopies, List.range'_succ]
    · simp [Store.withCopies, Nat.add_comm, Nat.add_left_comm]

/-- Native copies are made of any texts. -/
theorem yields_copying (ts : List String) (s : Store) :
    Yields (do
      let copies ← ts.mapM nativeCopy
      count fun c => { c with argvAllocations := c.argvAllocations + 1 }
      return Value.object (← newArray (.pointer .uint8) (copies ++ [Value.null]).toArray)) s
      (Value.object s.heap.objects.size) (s.withArgv ts) := by
  refine bind_iff.2 ⟨_, _, yields_nativeCopies ts s, bind_iff.2 ⟨(), _, yields_count.2 rfl, ?_⟩⟩
  unfold newArray newObject
  simp only [bind_iff, get_iff, modify_iff, pure_iff]
  exact ⟨_, _, ⟨_, _, ⟨rfl, rfl⟩, (), _, rfl, rfl, rfl⟩, rfl, rfl⟩

theorem yields_argsToArgv_iff {r : Value} :
    Yields (argsToArgv v) s r t ↔ ∃ items ts, s.heap.IsArray v .string items ∧
      s.heap.Texts items.toList ts ∧ r = .object s.heap.objects.size ∧ t = s.withArgv ts := by
  unfold argsToArgv
  constructor
  · intro h
    obtain ⟨id, u, hid, hread⟩ := bind_iff.1 h
    obtain ⟨⟨element, items⟩, u', harray, hrest⟩ := bind_iff.1 hread
    obtain ⟨hid, rfl⟩ := yields_ofExcept.1 hid
    obtain ⟨harray, rfl⟩ := yields_read.1 harray
    dsimp only at hrest
    by_cases hstring : element = .string
    · subst hstring
      rw [if_neg (not_not_intro rfl)] at hrest
      obtain ⟨ts, u, hts, hcopies⟩ := bind_iff.1 hrest
      obtain ⟨hts, rfl⟩ := yields_texts_iff.1 hts
      obtain ⟨rfl, rfl⟩ := hcopies.unique (yields_copying ts u)
      obtain ⟨pins, harray⟩ := Heap.array_eq_ok.1 harray
      refine ⟨items, ts, ⟨id, pins, ?_, harray⟩, hts, rfl, rfl⟩
      cases v <;> cases hid
      rfl
    · rw [if_pos hstring] at hrest
      obtain ⟨_, _, hthrow, -⟩ := bind_iff.1 hrest
      exact absurd hthrow not_throw
  · rintro ⟨items, ts, ⟨id, pins, rfl, harray⟩, hts, rfl, rfl⟩
    refine bind_iff.2 ⟨id, s, yields_ofExcept.2 ⟨rfl, rfl⟩, bind_iff.2 ⟨_, s, yields_read.2
      ⟨Heap.array_eq_ok.2 ⟨pins, harray⟩, rfl⟩, ?_⟩⟩
    dsimp only
    rw [if_neg (not_not_intro rfl)]
    exact bind_iff.2 ⟨ts, s, yields_texts_iff.2 ⟨hts, rfl⟩, yields_copying ts s⟩

/-- Native copies of strings are made, and the array of pointers to them. -/
theorem yields_argsToArgv {id pins : Nat} {ids : List Nat} {ts : List String}
    (hid : s.heap.objects[id]? = some (.array .string (ids.map .object).toArray pins))
    (hlength : ids.length = ts.length)
    (h : ∀ p ∈ ids.zip ts, s.heap.objects[p.1]? = some (.string p.2)) :
    Yields (argsToArgv (.object id)) s (.object s.heap.objects.size)
      (s.withArgv ts) := by
  obtain ⟨htexts, -⟩ := yields_texts_iff.1 (yields_texts hlength h)
  exact yields_argsToArgv_iff.2 ⟨_, ts, ⟨id, pins, rfl, hid⟩, htexts, rfl, rfl⟩

/-! ## Giving them back -/

/-- The blocks that the elements of an array lead to are given back, and no others. -/
theorem yields_freeArgv {id first count pins : Nat} {element : TargetType}
    (hid : s.heap.objects[id]? =
      some (.array element (pointersTo first count ++ [Value.null]).toArray pins))
    (h : ∀ id, first ≤ id → id < first + count → ∃ bytes, s.heap.blocks[id]? = some (.live bytes)) :
    ∃ t, Yields (freeArgv (.object id)) s () t ∧
      t.heap.objects = s.heap.objects ∧ t.heap.blocks.size = s.heap.blocks.size ∧
      (∀ id : Nat, t.heap.blocks[id]? =
        if first ≤ id ∧ id < first + count then some .freed else s.heap.blocks[id]?) ∧
      t.stats = { s.stats with
        argvFrees := s.stats.argvFrees + 1, blocksFreed := s.stats.blocksFreed + count } ∧
      t.events = s.events := by
  have hblocks := blocksOf_pointersTo first count
  have hlive : ∀ id ∈ List.range' first count, s.heap.Live id := by
    intro id hid
    obtain ⟨hle, hlt⟩ := List.mem_range'_1.1 hid
    exact h id hle hlt
  refine ⟨(s.count fun c => { c with argvFrees := c.argvFrees + 1 }).giveBack (List.range' first count),
    yields_freeArgv_iff.2 ⟨element, _, ⟨id, pins, rfl, hid⟩, ?_⟩, rfl, Store.size_giveBack _ _, ?_, ?_, rfl⟩
  · rw [hblocks]
    exact ⟨List.nodup_range', hlive, rfl⟩
  · intro id
    refine (Store.blocks_giveBack ?_ id).trans ?_
    · intro j hj
      exact Store.lt_size_of_live (hlive j hj)
    · simp only [List.mem_range'_1]
      rfl
  · simp [Store.giveBack, Store.count]

/-! ## Copying arrays -/

/-- An array becomes equal to another one of its type and size. -/
theorem yields_arrayCopy {source destination pins pins' : Nat} {element : TargetType}
    {items targets : Array Value} {length : Int64}
    (hsource : s.heap.objects[source]? = some (.array element items pins))
    (hdestination : s.heap.objects[destination]? = some (.array element targets pins'))
    (hlength : length.toInt = items.size) (hsize : targets.size = items.size) :
    Yields (arrayCopy (.object source) (.object destination) length) s () { s with
      heap := { s.heap with
        objects := s.heap.objects.setIfInBounds destination (.array element items pins') } } := by
  have hnat : length.toInt.toNat = items.size := by omega
  have hcopy : items.extract 0 items.size ++ targets.extract items.size targets.size = items := by
    rw [hsize, Array.extract_size, Array.extract_empty_of_stop_le_start (Nat.le_refl _),
      Array.append_empty]
  refine yields_arrayCopy_iff.2 ⟨source, destination, element, items, targets, pins, pins', rfl, rfl,
    hsource, hdestination, by omega, by omega, by omega, ?_⟩
  rw [hnat, hcopy]

end Access

end ManagedC
