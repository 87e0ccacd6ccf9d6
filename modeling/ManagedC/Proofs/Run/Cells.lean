import ManagedC.Proofs.Run.Values

/-!
# What a pointer leads to

A pointer into an array that may be used leads to an element if its offset is that of one
(`Heap.AtElement`); a pointer into native memory leads to an integer of a type if all bytes of the
integer are in the block (`Heap.AtBytes`). Nothing else can be loaded or stored. Main statements: what is
loaded (`Heap.load_iff`), where something can be stored (`Heap.store_cases`), and that what is loaded
right after a store is what was stored, cut down to the type of the elements or to that of the access
(`Heap.load_store`).
-/

namespace ManagedC

/-! ## Integers as bytes -/

theorem natOfBytes_bytesOf : ∀ width n : Nat, natOfBytes (bytesOf width n) = n % 256 ^ width
  | 0, n => by rw [Nat.pow_zero, Nat.mod_one]; rfl
  | width + 1, n => by
    have hlow : (UInt8.ofNat (n % 256)).toNat = n % 256 :=
      UInt8.toNat_ofNat_of_lt' (Nat.mod_lt n (by decide))
    rw [bytesOf, natOfBytes, natOfBytes_bytesOf width, hlow, Nat.pow_succ, Nat.mul_comm (256 ^ width),
      Nat.mod_mul]

@[simp] theorem length_bytesOf : ∀ width n : Nat, (bytesOf width n).length = width
  | 0, _ => rfl
  | width + 1, n => congrArg (· + 1) (length_bytesOf width (n / 256))

namespace TargetType

variable {type : TargetType} {size : Nat}

theorem size_pos (h : type.size? = some size) : 0 < size := by
  cases type <;> cases h <;> decide

/-- The size of a type is a divisor of that of a word. -/
theorem size_dvd (h : type.size? = some size) : size ∣ 8 := by
  cases type <;> cases h <;> decide

theorem elementSize_eq_ok : type.elementSize = .ok size ↔ type.size? = some size := by
  unfold elementSize
  cases type.size? with
  | none => simp [throw, throwThe, MonadExceptOf.throw]
  | some n => simp [pure, Except.pure]

/-- An integer is cut down by its lowest bytes alone. -/
theorem narrow_congr {m n : Int64} (hinteger : type.isInteger = true) (hsize : type.size? = some size)
    (h : (256 ^ size : Int) ∣ m.toInt - n.toInt) : type.narrow m = type.narrow n := by
  have hsigned : ∀ k : Nat, (k : Int) ∣ m.toInt - n.toInt → m.toInt.bmod k = n.toInt.bmod k :=
    fun k hk => Int.bmod_eq_bmod_iff_bmod_sub_eq_zero.2 (Int.bmod_eq_zero_of_dvd hk)
  have hunsigned : ∀ k : Int, k ∣ m.toInt - n.toInt → m.toInt % k = n.toInt % k :=
    fun k hk => Int.emod_eq_emod_iff_emod_sub_eq_zero.2 (Int.emod_eq_zero_of_dvd hk)
  have hword : (2 ^ 64 : Int) ∣ m.toInt - n.toInt → m = n := by
    intro hk
    apply Int64.toInt_inj.1
    have := hsigned (2 ^ 64) hk
    rwa [m.toInt_bmod, n.toInt_bmod] at this
  cases type <;> cases hinteger <;> cases hsize
  case int8 => exact congrArg Int64.ofInt (hsigned _ h)
  case uint8 => exact congrArg Int64.ofInt (hunsigned _ h)
  case int16 => exact congrArg Int64.ofInt (hsigned _ h)
  case uint16 => exact congrArg Int64.ofInt (hunsigned _ h)
  case int32 => exact congrArg Int64.ofInt (hsigned _ h)
  case uint32 => exact congrArg Int64.ofInt (hunsigned _ h)
  all_goals exact hword h

/-- The lowest bytes of an integer are all that is left of it when it is cut down. -/
theorem narrow_bytes (hinteger : type.isInteger = true) (hsize : type.size? = some size) (n : Int64) :
    type.narrow (Int64.ofNat (natOfBytes (bytesOf size n.toUInt64.toNat))) = type.narrow n := by
  refine narrow_congr hinteger hsize ?_
  have hword : (256 ^ size : Int) ∣ 2 ^ 64 := by
    have hle := Nat.le_of_dvd (by decide) (size_dvd hsize)
    exact_mod_cast Nat.pow_dvd_pow 256 hle
  have hleft : ∀ k : Nat, (2 ^ 64 : Int) ∣ (Int64.ofNat k).toInt - k := by
    intro k
    rw [Int64.toInt_ofNat']
    exact Int.dvd_bmod_sub_self
  have hright : (2 ^ 64 : Int) ∣ n.toUInt64.toNat - n.toInt := by
    have hn : n.toInt = (n.toUInt64.toNat : Int).bmod (2 ^ 64) := BitVec.toInt_eq_toNat_bmod _
    rw [hn, ← Int.neg_sub]
    exact Int.dvd_neg.2 Int.dvd_bmod_sub_self
  have hmod : (256 ^ size : Int) ∣ ((n.toUInt64.toNat % 256 ^ size : Nat) : Int) - n.toUInt64.toNat := by
    rw [Int.natCast_emod, ← Int.neg_sub, Int.natCast_pow]
    exact Int.dvd_neg.2 (Int.dvd_self_sub_emod)
  rw [natOfBytes_bytesOf]
  generalize n.toUInt64.toNat % 256 ^ size = low at hmod ⊢
  have hsum := Int.dvd_add (Int.dvd_add (Int.dvd_trans hword (hleft low)) hmod)
    (Int.dvd_trans hword hright)
  have hcancel : (Int64.ofNat low).toInt - low + (low - n.toUInt64.toNat) + (n.toUInt64.toNat - n.toInt) =
      (Int64.ofNat low).toInt - n.toInt := by omega
  rwa [hcancel] at hsum

end TargetType

namespace Heap

variable {h h' : Heap} {p : Pointer} {type element : TargetType} {v : Value} {id index pins : Nat}
  {elements : Array Value} {bytes : List UInt8}

/-- A pointer may be used now, and it leads to an element of an array. -/
structure AtElement (h : Heap) (p : Pointer) (id : Nat) (element : TargetType)
    (elements : Array Value) (pins index : Nat) : Prop where
  /-- It points into the array. -/
  place : p.place = .array id
  object : h.objects[id]? = some (.array element elements pins)
  /-- It is a managed reference, or the array is pinned. -/
  usable : p.managed = true ∨ 0 < pins
  /-- The element is one of the array. -/
  lt : index < elements.size
  offset : ∃ size, element.size? = some size ∧ p.offset.toInt = index * size

/-- A pointer leads to an integer of a type in native memory. -/
structure AtBytes (h : Heap) (p : Pointer) (type : TargetType) (id : Nat) (bytes : List UInt8)
    (start width : Nat) : Prop where
  /-- It points into the block. -/
  place : p.place = .native id
  /-- The block is in use. -/
  block : h.blocks[id]? = some (.live bytes)
  isInteger : type.isInteger = true
  size : type.size? = some width
  offset : p.offset.toInt = start
  /-- All of it is in the block. -/
  le : start + width ≤ bytes.length

theorem checkAccess_eq_ok : h.checkAccess p = .ok () ↔
    ∀ id, p.place = .array id → p.managed = true ∨ h.isPinned id = true := by
  unfold checkAccess
  cases p.place with
  | native => simp [pure, Except.pure]
  | array id =>
    cases p.managed <;> cases h.isPinned id <;>
      simp [pure, Except.pure, throw, throwThe, MonadExceptOf.throw]

theorem isPinned_of_object (ho : h.objects[id]? = some (.array element elements pins)) :
    h.isPinned id = true ↔ 0 < pins := by
  simp [isPinned, pins?, ho]

theorem elementIndex_eq_ok {offset : Int64}
    (ho : h.objects[id]? = some (.array element elements pins)) :
    h.elementIndex id offset = .ok index ↔
      index < elements.size ∧ ∃ size, element.size? = some size ∧ offset.toInt = index * size := by
  unfold elementIndex
  rw [Heap.array_eq_ok.2 ⟨pins, ho⟩]
  show (element.elementSize >>= fun size => _) = _ ↔ _
  rw [Except.bind_eq_ok]
  have hneg : offset < 0 ↔ offset.toInt < 0 := Int64.lt_iff_toInt_lt
  constructor
  · rintro ⟨size, hsize, hindex⟩
    have hsize := TargetType.elementSize_eq_ok.1 hsize
    dsimp only at hindex
    split at hindex
    · cases hindex
    rename_i hstart
    split at hindex
    · cases hindex
    rename_i hlt
    obtain rfl := Except.pure_eq_ok.1 hindex
    simp only [Bool.or_eq_true, decide_eq_true_eq, hneg, not_or, not_not, Int.not_lt] at hstart
    refine ⟨Nat.lt_of_not_le hlt, size, hsize, ?_⟩
    have hdvd : size ∣ offset.toInt.toNat := by
      rw [← Int.natCast_dvd_natCast, Int.toNat_of_nonneg hstart.1]
      exact Int.dvd_of_emod_eq_zero hstart.2
    rw [← Int.natCast_mul, Nat.div_mul_cancel hdvd, Int.toNat_of_nonneg hstart.1]
  · rintro ⟨hlt, size, hsize, hoffset⟩
    have hpos := TargetType.size_pos hsize
    refine ⟨size, TargetType.elementSize_eq_ok.2 hsize, ?_⟩
    have hnat : offset.toInt.toNat / size = index := by
      rw [hoffset, ← Int.natCast_mul, Int.toNat_natCast, Nat.mul_div_cancel _ hpos]
    have hstart : ¬ (decide (offset < 0) || decide (offset.toInt % size ≠ 0)) = true := by
      simp only [Bool.or_eq_true, decide_eq_true_eq, hneg, hoffset, Int.mul_emod_left, ne_eq,
        not_true_eq_false, or_false, Int.not_lt]
      exact Int.mul_nonneg (Int.natCast_nonneg _) (Int.natCast_nonneg _)
    dsimp only
    rw [if_neg hstart, hnat, if_neg (by omega)]
    rfl

theorem nativeStart_eq_ok {size width start : Nat} {offset : Int64} :
    nativeStart size offset width = .ok start ↔ offset.toInt = start ∧ start + width ≤ size := by
  have hneg : offset < 0 ↔ offset.toInt < 0 := Int64.lt_iff_toInt_lt
  unfold nativeStart
  split
  · rename_i hout
    simp only [Bool.or_eq_true, decide_eq_true_eq, hneg] at hout
    simp only [throw, throwThe, MonadExceptOf.throw, reduceCtorEq, false_iff]
    rintro ⟨hoffset, hle⟩
    omega
  · rename_i hin
    simp only [Bool.or_eq_true, decide_eq_true_eq, hneg] at hin
    rw [Except.pure_eq_ok]
    omega

theorem AtElement.checkAccess (ha : h.AtElement p id element elements pins index) :
    h.checkAccess p = .ok () := by
  refine checkAccess_eq_ok.2 fun id' hplace => ?_
  rw [ha.place] at hplace
  cases hplace
  exact ha.usable.imp_right (isPinned_of_object ha.object).2

theorem AtElement.elementIndex (ha : h.AtElement p id element elements pins index) :
    h.elementIndex id p.offset = .ok index :=
  (elementIndex_eq_ok ha.object).2 ⟨ha.lt, ha.offset⟩

/-- An element is loaded whatever the type of the access is. -/
theorem AtElement.load (ha : h.AtElement p id element elements pins index) (type : TargetType) :
    h.load p type = .ok (elements.getD index .null) := by
  have harray := array_eq_ok.2 ⟨pins, ha.object⟩
  unfold Heap.load
  rw [ha.checkAccess, ha.place]
  simp only [ha.elementIndex, harray, bind, Except.bind, pure, Except.pure]

/-- An integer is put together from its bytes. -/
theorem AtBytes.load {start width : Nat} (ha : h.AtBytes p type id bytes start width) :
    h.load p type =
      .ok (.int (type.narrow (Int64.ofNat (natOfBytes ((bytes.drop start).take width))))) := by
  have hcheck : h.checkAccess p = .ok () := by
    refine checkAccess_eq_ok.2 fun id' hplace => ?_
    rw [ha.place] at hplace
    cases hplace
  have hblock := block_eq_ok.2 ha.block
  have hwidth := TargetType.elementSize_eq_ok.2 ha.size
  have hstart := nativeStart_eq_ok.2 ⟨ha.offset, ha.le⟩
  unfold Heap.load
  rw [hcheck, ha.place]
  simp [ha.isInteger, hblock, hwidth, hstart, bind, Except.bind, pure, Except.pure]

/-- What can be loaded is an element of an array or an integer in native memory. -/
theorem load_iff : h.load p type = .ok v ↔
    (∃ id element elements pins index, h.AtElement p id element elements pins index ∧
      v = elements.getD index .null) ∨
    ∃ id bytes start width, h.AtBytes p type id bytes start width ∧
      v = .int (type.narrow (Int64.ofNat (natOfBytes ((bytes.drop start).take width)))) := by
  constructor
  · intro hl
    unfold Heap.load at hl
    obtain ⟨_, hcheck, hl⟩ := Except.bind_eq_ok.1 hl
    cases hp : p.place with
    | array id =>
      rw [hp] at hl
      obtain ⟨index, hindex, hl⟩ := Except.bind_eq_ok.1 hl
      obtain ⟨⟨element, elements⟩, ha, hl⟩ := Except.bind_eq_ok.1 hl
      obtain ⟨pins, ho⟩ := array_eq_ok.1 ha
      obtain ⟨hlt, hoffset⟩ := (elementIndex_eq_ok ho).1 hindex
      have husable := (checkAccess_eq_ok.1 hcheck id hp).imp_right (isPinned_of_object ho).1
      exact .inl ⟨id, element, elements, pins, index, ⟨hp, ho, husable, hlt, hoffset⟩,
        (Except.pure_eq_ok.1 hl).symm⟩
    | native id =>
      rw [hp] at hl
      dsimp only at hl
      split at hl
      · cases hl
      rename_i hinteger
      obtain ⟨bytes, hb, hl⟩ := Except.bind_eq_ok.1 hl
      obtain ⟨width, hwidth, hl⟩ := Except.bind_eq_ok.1 hl
      obtain ⟨start, hstart, hl⟩ := Except.bind_eq_ok.1 hl
      obtain ⟨hoffset, hle⟩ := nativeStart_eq_ok.1 hstart
      exact .inr ⟨id, bytes, start, width, ⟨hp, block_eq_ok.1 hb, by simpa using hinteger,
        TargetType.elementSize_eq_ok.1 hwidth, hoffset, hle⟩, (Except.pure_eq_ok.1 hl).symm⟩
  · rintro (⟨id, element, elements, pins, index, ha, rfl⟩ | ⟨id, bytes, start, width, ha, rfl⟩)
    · exact ha.load type
    · exact ha.load

/-- Where something can be stored, and what is there then. -/
theorem store_cases (hs : h.store p type v = .ok h') :
    (∃ id element elements pins index, h.AtElement p id element elements pins index ∧
      h' = { h with
        objects := h.objects.setIfInBounds id
          (.array element (elements.setIfInBounds index (v.narrow element)) pins) }) ∨
    ∃ id bytes start width n, h.AtBytes p type id bytes start width ∧ v = .int n ∧
      h' = h.setBytes id
        (bytes.take start ++ bytesOf width n.toUInt64.toNat ++ bytes.drop (start + width)) := by
  unfold Heap.store at hs
  obtain ⟨_, hcheck, hs⟩ := Except.bind_eq_ok.1 hs
  cases hp : p.place with
  | array id =>
    rw [hp] at hs
    obtain ⟨index, hindex, hs⟩ := Except.bind_eq_ok.1 hs
    obtain ⟨⟨element, elements⟩, ha, hs⟩ := Except.bind_eq_ok.1 hs
    obtain ⟨pins, ho⟩ := array_eq_ok.1 ha
    obtain ⟨element', old, pins', ho', rfl⟩ := setElements_eq_ok.1 hs
    cases ho.symm.trans ho'
    obtain ⟨hlt, hoffset⟩ := (elementIndex_eq_ok ho).1 hindex
    have husable := (checkAccess_eq_ok.1 hcheck id hp).imp_right (isPinned_of_object ho).1
    exact .inl ⟨id, element, elements, pins, index, ⟨hp, ho, husable, hlt, hoffset⟩, rfl⟩
  | native id =>
    rw [hp] at hs
    dsimp only at hs
    split at hs
    · cases hs
    rename_i hinteger
    obtain ⟨width, hwidth, hs⟩ := Except.bind_eq_ok.1 hs
    obtain ⟨n, hn, hs⟩ := Except.bind_eq_ok.1 hs
    obtain ⟨bytes, hb, hs⟩ := Except.bind_eq_ok.1 hs
    obtain ⟨start, hstart, hs⟩ := Except.bind_eq_ok.1 hs
    obtain ⟨hoffset, hle⟩ := nativeStart_eq_ok.1 hstart
    have hv : v = .int n := by
      cases v <;> cases hn
      rfl
    exact .inr ⟨id, bytes, start, width, n, ⟨hp, block_eq_ok.1 hb, by simpa using hinteger,
      TargetType.elementSize_eq_ok.1 hwidth, hoffset, hle⟩, hv, (Except.pure_eq_ok.1 hs).symm⟩

/-- The type that a value is cut down to when it is stored where a pointer leads: that of the elements of
the array, or that of the access. -/
def cellType (h : Heap) (p : Pointer) (type : TargetType) : TargetType :=
  match p.place with
  | .array id =>
    match h.objects[id]? with
    | some (.array element _ _) => element
    | _ => type
  | .native _ => type

/-- What is loaded right after a store is what was stored, cut down to the type that is kept there. -/
theorem load_store (hs : h.store p type v = .ok h') :
    h'.load p type = .ok (v.narrow (h'.cellType p type)) := by
  rcases store_cases hs with ⟨id, element, elements, pins, index, ha, rfl⟩ |
    ⟨id, bytes, start, width, n, ha, rfl, rfl⟩
  · have hlt := (Array.getElem?_eq_some_iff.1 ha.object).1
    have hobject : (h.objects.setIfInBounds id (.array element (elements.setIfInBounds index
        (v.narrow element)) pins))[id]? = some (.array element (elements.setIfInBounds index
        (v.narrow element)) pins) := Array.getElem?_setIfInBounds_self_of_lt hlt
    have hafter : ({ h with objects := h.objects.setIfInBounds id (.array element
        (elements.setIfInBounds index (v.narrow element)) pins) } : Heap).AtElement p id element
        (elements.setIfInBounds index (v.narrow element)) pins index :=
      ⟨ha.place, hobject, ha.usable, by simpa using ha.lt, ha.offset⟩
    have hcell : ({ h with objects := h.objects.setIfInBounds id (.array element
        (elements.setIfInBounds index (v.narrow element)) pins) } : Heap).cellType p type = element := by
      unfold cellType
      rw [ha.place]
      dsimp only
      rw [hobject]
    rw [hafter.load type, hcell]
    simp [Array.getD, ha.lt]
  · have hlt := (Array.getElem?_eq_some_iff.1 ha.block).1
    have htake : (bytes.take start).length = start := by
      rw [List.length_take]
      have := ha.le
      omega
    have hafter : (h.setBytes id (bytes.take start ++ bytesOf width n.toUInt64.toNat ++
        bytes.drop (start + width))).AtBytes p type id (bytes.take start ++
        bytesOf width n.toUInt64.toNat ++ bytes.drop (start + width)) start width :=
      ⟨ha.place, Array.getElem?_setIfInBounds_self_of_lt hlt, ha.isInteger, ha.size, ha.offset,
        by simp only [List.length_append, htake, length_bytesOf]; omega⟩
    have hbytes : ((bytes.take start ++ bytesOf width n.toUInt64.toNat ++
        bytes.drop (start + width)).drop start).take width = bytesOf width n.toUInt64.toNat := by
      rw [List.append_assoc, List.drop_append_of_le_length (by omega), List.drop_of_length_le (by omega),
        List.nil_append, List.take_append_of_le_length (by simp), List.take_of_length_le (by simp)]
    have hcell : (h.setBytes id (bytes.take start ++ bytesOf width n.toUInt64.toNat ++
        bytes.drop (start + width))).cellType p type = type := by
      unfold cellType
      rw [ha.place]
    rw [hafter.load, hbytes, TargetType.narrow_bytes ha.isInteger ha.size, hcell]
    rfl

end Heap

end ManagedC
