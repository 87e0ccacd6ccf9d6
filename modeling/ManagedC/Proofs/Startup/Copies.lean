import ManagedC.Proofs.Cleanup.ExitPaths

/-!
# Lists of native copies

What the starter hands to the entry function is an array that lists native copies of the strings that
the host passed. Main statements: the host's strings are where its array of references says
(`Session.exists_hostArguments`), copying them makes such a list (`Access.lists_argsToArgv`), the list
survives what the starter does to other objects, and what is loaded through pointers into it and into
its copies is known (`Heap.Lists.load`, `Heap.load_byte`).
-/

namespace ManagedC

/-- An array lists native copies of strings: it has pointers to the starts of consecutive blocks, each
of which holds the bytes of one string and a zero, and a null at its end. -/
structure Heap.Lists (h : Heap) (args : List String) (first id pins : Nat) : Prop where
  array : h.objects[id]? = some (.array .nativeString
    (pointersTo first args.length ++ [Value.null]).toArray pins)
  copies : ∀ (k : Nat) (text : String), args[k]? = some text →
    h.blocks[first + k]? = some (Block.ofText text)

namespace Heap.Lists

variable {h h' : Heap} {args : List String} {first id pins : Nat}

/-- A list stays what it is while its array and its blocks do. -/
theorem congr (hl : h.Lists args first id pins) (hobjects : h'.objects[id]? = h.objects[id]?)
    (hblocks : h'.blocks = h.blocks) : h'.Lists args first id pins :=
  ⟨hobjects.trans hl.array, fun k text hk => hblocks ▸ hl.copies k text hk⟩

/-- A list is not touched when another array changes. -/
theorem setOther {other pins' : Nat} {element : TargetType} {elements : Array Value}
    (hl : h.Lists args first id pins) (hne : other ≠ id) :
    Heap.Lists { h with objects := h.objects.setIfInBounds other (.array element elements pins') }
      args first id pins :=
  hl.congr (Array.getElem?_setIfInBounds_ne hne) rfl

/-- A list is not touched when an object is added. -/
theorem addObject {o : HeapObject} (hl : h.Lists args first id pins) :
    (h.addObject o).Lists args first id pins := by
  have hlt := (Array.getElem?_eq_some_iff.1 hl.array).1
  refine hl.congr ?_ rfl
  exact (Array.getElem?_push_lt hlt).trans (Array.getElem?_eq_getElem hlt).symm

/-- Another array becomes the same list when it gets the same elements. -/
theorem setCopy {copy pins' : Nat} (hl : h.Lists args first id pins)
    (hcopy : copy < h.objects.size) :
    Heap.Lists { h with objects := h.objects.setIfInBounds copy (.array .nativeString
      (pointersTo first args.length ++ [Value.null]).toArray pins') } args first copy pins' :=
  ⟨Array.getElem?_setIfInBounds_self_of_lt hcopy, hl.copies⟩

theorem size (args : List String) (first : Nat) :
    (pointersTo first args.length ++ [Value.null]).toArray.size = args.length + 1 := by
  simp [pointersTo]

end Heap.Lists

/-- The host's strings are objects, and it passes an array of references to them. -/
theorem Session.exists_hostArguments (args : List String) (s : Store) : ∃ (id : Nat) (ids : List Nat)
    (objects : Array HeapObject),
    hostArguments args s = (.object id, { s with heap := { s.heap with objects := objects } }) ∧
      ids.length = args.length ∧
      objects[id]? = some (.array .string (ids.map Value.object).toArray 0) ∧
      ∀ p ∈ ids.zip args, objects[p.1]? = some (.string p.2) := by
  let references := (List.range args.length).map (s.heap.objects.size + ·)
  let strings := s.heap.objects ++ (args.map HeapObject.string).toArray
  have hsize : strings.size = s.heap.objects.size + args.length := by simp [strings]
  refine ⟨strings.size, references,
    strings.push (.array .string (references.map Value.object).toArray 0), ?_, by simp [references],
    Array.getElem?_push_size, ?_⟩
  · rw [hostArguments_eq]
    simp [strings, references, Function.comp_def]
  · rintro ⟨id, text⟩ hp
    obtain ⟨k, hk⟩ := List.mem_iff_getElem?.1 hp
    obtain ⟨hid, htext⟩ := List.getElem?_zip_eq_some.1 hk
    obtain ⟨hlt, rfl⟩ := List.getElem?_eq_some_iff.1 hid
    have hlt : k < args.length := by simpa [references] using hlt
    have hid : references[k] = s.heap.objects.size + k := by simp [references]
    rw [hid, Array.getElem?_push_lt (by rw [hsize]; omega), Array.getElem_append_right (by omega)]
    obtain ⟨_, rfl⟩ := List.getElem?_eq_some_iff.1 htext
    simp

/-- The native copies of strings, and the array that lists them. -/
theorem Access.lists_argsToArgv {s : Store} {id : Nat} {ids : List Nat} {args : List String}
    {pins : Nat} (hid : s.heap.objects[id]? = some (.array .string (ids.map .object).toArray pins))
    (hlength : ids.length = args.length)
    (hstrings : ∀ p ∈ ids.zip args, s.heap.objects[p.1]? = some (.string p.2)) :
    ∃ t, Yields (callHelper .argsToArgv [.object id]) s (some (.object s.heap.objects.size)) t ∧
      t.heap.Lists args s.heap.blocks.size s.heap.objects.size 0 := by
  refine ⟨_, Yields.map_iff.2 ⟨_, yields_argsToArgv hid hlength hstrings, rfl⟩, ?_, ?_⟩
  · exact Array.getElem?_push_size
  · intro k text hk
    obtain ⟨hlt, rfl⟩ := List.getElem?_eq_some_iff.1 hk
    show (s.heap.blocks ++ (args.map Block.ofText).toArray)[s.heap.blocks.size + k]? = _
    rw [Array.getElem?_append_right (Nat.le_add_right _ _), Nat.add_sub_cancel_left]
    simp [hlt]

/-! ## Loads -/

namespace Heap.Lists

variable {h : Heap} {args : List String} {first id pins : Nat} {type : TargetType} {offset : Int64}
  {k : Nat}

/-- What is in the array of a list. -/
theorem getElem? (args : List String) (first k : Nat) :
    (pointersTo first args.length ++ [Value.null]).toArray[k]? =
      if k < args.length then some (.pointer ⟨.native (first + k), 0, false⟩)
      else if k = args.length then some .null else none := by
  have hlength : (pointersTo first args.length).length = args.length := by simp [pointersTo]
  rw [List.getElem?_toArray]
  by_cases hlt : k < args.length
  · rw [if_pos hlt, List.getElem?_append_left (by omega)]
    simp [pointersTo, hlt]
  · rw [if_neg hlt, List.getElem?_append_right (by omega), hlength]
    by_cases heq : k = args.length
    · rw [if_pos heq, heq, Nat.sub_self]
      rfl
    · rw [if_neg heq, List.getElem?_eq_none]
      show 1 ≤ _
      omega

/-- An unmanaged pointer may be used while the array is pinned. -/
theorem checkAccess (hl : h.Lists args first id pins) (hpins : 0 < pins) (offset : Int64) :
    h.checkAccess ⟨.array id, offset, false⟩ = .ok () := by
  unfold Heap.checkAccess isPinned pins?
  simp [hl.array, hpins, pure, Except.pure]

/-- Where a pointer into the array of a list leads. -/
theorem elementIndex (hl : h.Lists args first id pins) (n : Int) (hoffset : offset.toInt = n * 8) :
    h.elementIndex id offset =
      if n < 0 then .error (.outOfBounds offset ((args.length + 1) * 8))
      else if args.length < n then .error (.indexOutOfRange (Int64.ofNat n.toNat) (args.length + 1))
      else .ok n.toNat := by
  have harray := Heap.array_eq_ok.2 ⟨pins, hl.array⟩
  have hnegative : offset < 0 ↔ n < 0 := by
    rw [Int64.lt_iff_toInt_lt, hoffset]
    show n * 8 < 0 ↔ n < 0
    omega
  have haligned : offset.toInt % ((8 : Nat) : Int) = 0 := by omega
  have hindex : offset.toInt.toNat / 8 = n.toNat := by omega
  unfold Heap.elementIndex
  rw [harray]
  show (if (decide (offset < 0) || decide (offset.toInt % ((8 : Nat) : Int) ≠ 0)) = true then
    Except.error (Fault.outOfBounds offset (Array.size _ * 8))
    else if Array.size _ ≤ offset.toInt.toNat / 8 then
      Except.error (Fault.indexOutOfRange (Int64.ofNat (offset.toInt.toNat / 8)) (Array.size _))
    else Except.ok (offset.toInt.toNat / 8)) = _
  rw [Heap.Lists.size, hindex]
  simp only [haligned, ne_eq, not_true_eq_false, decide_false, Bool.or_false, decide_eq_true_eq,
    hnegative]
  by_cases hn : n < 0
  · rw [if_pos hn, if_pos hn]
  · rw [if_neg hn, if_neg hn]
    by_cases hbeyond : args.length < n
    · rw [if_pos hbeyond, if_pos (by omega)]
    · rw [if_neg hbeyond, if_neg (by omega)]

/-- A pointer that leads in front of a list cannot be used. -/
theorem load_below (hl : h.Lists args first id pins) (hpins : 0 < pins) (n : Int)
    (hoffset : offset.toInt = n * 8) (hn : n < 0) : h.load ⟨.array id, offset, false⟩ type =
      .error (.outOfBounds offset ((args.length + 1) * 8)) := by
  unfold Heap.load
  rw [hl.checkAccess hpins]
  dsimp only [bind, Except.bind]
  rw [hl.elementIndex n hoffset, if_pos hn]

/-- A pointer that leads behind a list cannot be used. -/
theorem load_beyond (hl : h.Lists args first id pins) (hpins : 0 < pins) (n : Int)
    (hoffset : offset.toInt = n * 8) (hn : args.length < n) :
    h.load ⟨.array id, offset, false⟩ type =
      .error (.indexOutOfRange (Int64.ofNat n.toNat) (args.length + 1)) := by
  unfold Heap.load
  rw [hl.checkAccess hpins]
  dsimp only [bind, Except.bind]
  rw [hl.elementIndex n hoffset, if_neg (by omega), if_pos hn]

/-- What is loaded from a list. -/
theorem load (hl : h.Lists args first id pins) (hpins : 0 < pins)
    (hoffset : offset.toInt = k * 8) (hk : k ≤ args.length) :
    h.load ⟨.array id, offset, false⟩ type =
      .ok (if k < args.length then .pointer ⟨.native (first + k), 0, false⟩ else .null) := by
  have harray := Heap.array_eq_ok.2 ⟨pins, hl.array⟩
  unfold Heap.load
  rw [hl.checkAccess hpins]
  dsimp only [bind, Except.bind]
  rw [hl.elementIndex k hoffset, if_neg (by omega), if_neg (by omega), harray, Int.toNat_natCast]
  show Except.ok ((_ : Array Value).getD k .null) = _
  rw [Array.getD_eq_getD_getElem?, getElem? args first k]
  by_cases hlt : k < args.length
  · rw [if_pos hlt, if_pos hlt]
    rfl
  · rw [if_neg hlt, if_neg hlt, if_pos (by omega)]
    rfl

end Heap.Lists

/-! ## Bytes -/

/-- The number that a byte is as a character of a type. -/
def PrimitiveType.ofByte : PrimitiveType → UInt8 → Int64
  | .signedChar, b => b.toInt8.toInt64
  | _, b => Int64.ofNat b.toNat

/-- The type is one of characters. -/
def PrimitiveType.IsCharacter (kind : PrimitiveType) : Prop :=
  kind = .char ∨ kind = .signedChar ∨ kind = .unsignedChar

/-- What a byte becomes when it is loaded. -/
theorem PrimitiveType.narrow_byte {kind : PrimitiveType} (h : kind.IsCharacter) (b : UInt8) :
    kind.target.narrow (Int64.ofNat b.toNat) = kind.ofByte b := by
  have hlt : b.toNat < 256 := b.toNat_lt
  have hint : (Int64.ofNat b.toNat).toInt = b.toNat := Int64.toInt_ofNat_of_lt (by omega)
  rcases h with rfl | rfl | rfl
  · show Int64.ofInt ((Int64.ofNat b.toNat).toInt % 2 ^ 8) = Int64.ofNat b.toNat
    rw [hint, Int.emod_eq_of_lt (by omega) (by omega), Int64.ofInt_eq_ofNat]
  · show Int64.ofInt ((Int64.ofNat b.toNat).toInt.bmod (2 ^ 8)) = b.toInt8.toInt64
    have hsigned : b.toInt8.toInt = (b.toNat : Int).bmod (2 ^ 8) := BitVec.toInt_eq_toNat_bmod _
    rw [hint, ← hsigned]
    exact (Int64.toInt_inj.1 (by rw [Int8.toInt_toInt64, Int64.toInt_ofInt_of_le]
          <;> have := b.toInt8.le_toInt <;> have := b.toInt8.toInt_lt <;> omega)).symm
  · show Int64.ofInt ((Int64.ofNat b.toNat).toInt % 2 ^ 8) = Int64.ofNat b.toNat
    rw [hint, Int.emod_eq_of_lt (by omega) (by omega), Int64.ofInt_eq_ofNat]

namespace Heap

variable {h : Heap} {block : Nat} {text : String} {kind : PrimitiveType} {offset : Int64}

/-- The bytes of a native string, with the zero at its end. -/
def bytesWithEnd (text : String) : List UInt8 := text.toUTF8.toList ++ [0]

theorem nativeStart_one (size : Nat) (offset : Int64) : nativeStart size offset 1 =
    if offset.toInt < 0 ∨ size ≤ offset.toInt.toNat then .error (.outOfBounds offset size)
    else .ok offset.toInt.toNat := by
  unfold nativeStart
  have hzero : offset < 0 ↔ offset.toInt < 0 := Int64.lt_iff_toInt_lt
  simp only [Bool.or_eq_true, decide_eq_true_eq, hzero, Nat.lt_add_one_iff]
  rfl

/-- A character of a native string is loaded. -/
theorem load_byte (hblock : h.blocks[block]? = some (Block.ofText text)) (hkind : kind.IsCharacter)
    {k : Nat} {b : UInt8} (hoffset : offset.toInt = k) (hb : (bytesWithEnd text)[k]? = some b) :
    h.load ⟨.native block, offset, false⟩ kind.target = .ok (.int (kind.ofByte b)) := by
  have hlive : h.block block = .ok (bytesWithEnd text) := Heap.block_eq_ok.2 hblock
  have hinteger : kind.target.isInteger = true := by
    rcases hkind with rfl | rfl | rfl <;> rfl
  have hsize : kind.target.elementSize = .ok 1 := by
    rcases hkind with rfl | rfl | rfl <;> rfl
  obtain ⟨hlt, hget⟩ := List.getElem?_eq_some_iff.1 hb
  have hbytes : ((bytesWithEnd text).drop k).take 1 = [b] := by
    rw [List.drop_eq_getElem_cons hlt, hget]
    rfl
  have hstart : nativeStart (bytesWithEnd text).length offset 1 = .ok k := by
    rw [nativeStart_one, if_neg (by omega), hoffset]
    rfl
  unfold load checkAccess
  simp only [hinteger, hlive, hsize, hstart, hbytes, natOfBytes, Bool.not_true, Bool.false_eq_true,
    if_false, bind, Except.bind, pure, Except.pure]
  rw [Nat.mul_zero, Nat.add_zero, PrimitiveType.narrow_byte hkind]

/-- A pointer that leads out of a native string cannot be used. -/
theorem load_outOfText (hblock : h.blocks[block]? = some (Block.ofText text))
    (hkind : kind.IsCharacter)
    (hoffset : offset.toInt < 0 ∨ (bytesWithEnd text).length ≤ offset.toInt) :
    h.load ⟨.native block, offset, false⟩ kind.target =
      .error (.outOfBounds offset (bytesWithEnd text).length) := by
  have hlive : h.block block = .ok (bytesWithEnd text) := Heap.block_eq_ok.2 hblock
  have hinteger : kind.target.isInteger = true := by
    rcases hkind with rfl | rfl | rfl <;> rfl
  have hsize : kind.target.elementSize = .ok 1 := by
    rcases hkind with rfl | rfl | rfl <;> rfl
  have hstart : nativeStart (bytesWithEnd text).length offset 1 =
      .error (.outOfBounds offset (bytesWithEnd text).length) := by
    rw [nativeStart_one, if_pos (by omega)]
  unfold load checkAccess
  simp only [hinteger, hlive, hsize, hstart, Bool.not_true, Bool.false_eq_true, if_false, bind,
    Except.bind, pure, Except.pure]

end Heap

end ManagedC
