import ManagedC.Proofs.Run.Values

/-!
# When the services succeed

`argsToArgv` reads strings (`Access.yields_texts_iff`), `freeArgv` gives back the blocks that the elements of
an array lead to, if they are different ones in use (`Access.yields_freeArgv_iff`), and `arrayCopy` replaces
the first elements of an array by those of another one of the same type, if both have so many
(`Access.yields_arrayCopy_iff`).
-/

namespace ManagedC

/-! ## The arguments of use -/

/-- The block that a value points into, if it is one of native memory. -/
def Value.block? : Value → Option Nat
  | .pointer ⟨.native id, _, _⟩ => some id
  | _ => none

theorem Value.block?_eq_some {v : Value} {id : Nat} :
    v.block? = some id ↔ ∃ offset managed, v = .pointer ⟨.native id, offset, managed⟩ := by
  cases v with
  | pointer p =>
    obtain ⟨place, offset, managed⟩ := p
    cases place <;> simp [block?]
  | _ => simp [block?]

namespace Heap

/-- The value refers to an array with the elements. -/
def IsArray (h : Heap) (v : Value) (element : TargetType) (items : Array Value) : Prop :=
  ∃ id pins, v = .object id ∧ h.objects[id]? = some (.array element items pins)

theorem IsArray.unique {h : Heap} {v : Value} {element element' : TargetType} {items items' : Array Value}
    (ha : h.IsArray v element items) (ha' : h.IsArray v element' items') :
    element = element' ∧ items = items' := by
  obtain ⟨id, pins, rfl, hid⟩ := ha
  obtain ⟨_, pins', hsame, hid'⟩ := ha'
  cases hsame
  rw [hid] at hid'
  cases hid'
  exact ⟨rfl, rfl⟩

/-- The values refer to strings, which have the texts. -/
def Texts (h : Heap) : List Value → List String → Prop :=
  List.Forall₂ fun v text => ∃ id, v = .object id ∧ h.objects[id]? = some (.string text)

/-- The block is in use. -/
def Live (h : Heap) (id : Nat) : Prop := ∃ bytes, h.blocks[id]? = some (.live bytes)

end Heap

/-- The blocks that the elements of an array lead to, in order. -/
def blocksOf (items : Array Value) : List Nat := items.toList.filterMap Value.block?

/-! ## Reading strings -/

namespace Access

open Yields

variable {s t : Store} {values : List Value} {v : Value}

theorem yields_textOf {text : String} :
    Yields (ofExcept v.asObject >>= fun id => read (·.string id)) s text t ↔
      (∃ id, v = .object id ∧ s.heap.objects[id]? = some (.string text)) ∧ t = s := by
  constructor
  · intro h
    obtain ⟨id, u, hid, htext⟩ := bind_iff.1 h
    obtain ⟨hid, rfl⟩ := yields_ofExcept.1 hid
    obtain ⟨htext, rfl⟩ := yields_read.1 htext
    refine ⟨⟨id, ?_, ?_⟩, rfl⟩
    · cases v <;> cases hid
      rfl
    · obtain ⟨o, ho, htext⟩ := Except.bind_eq_ok.1 htext
      rw [Heap.object_eq_ok.1 ho]
      cases o <;> cases htext
      rfl
  · rintro ⟨⟨id, rfl, hid⟩, rfl⟩
    refine bind_iff.2 ⟨id, t, yields_ofExcept.2 ⟨rfl, rfl⟩, yields_read.2 ⟨?_, rfl⟩⟩
    unfold Heap.string
    rw [Heap.object_eq_ok.2 hid]
    rfl

/-- The texts of strings are read, and of nothing else. -/
theorem yields_texts_iff {ts : List String} :
    Yields (texts values) s ts t ↔ s.heap.Texts values ts ∧ t = s := by
  unfold Heap.Texts texts
  induction values generalizing ts t with
  | nil =>
    constructor
    · intro h
      obtain ⟨rfl, rfl⟩ := pure_iff.1 h
      exact ⟨.nil, rfl⟩
    · rintro ⟨h, rfl⟩
      cases h
      exact pure_iff.2 ⟨rfl, rfl⟩
  | cons v values ih =>
    rw [List.mapM_cons]
    constructor
    · intro h
      obtain ⟨text, u, htext, hvalues⟩ := bind_iff.1 h
      obtain ⟨rest, w, hrest, hts⟩ := bind_iff.1 hvalues
      obtain ⟨htext, rfl⟩ := yields_textOf.1 htext
      obtain ⟨hrest, rfl⟩ := ih.1 hrest
      obtain ⟨rfl, rfl⟩ := pure_iff.1 hts
      exact ⟨.cons htext hrest, rfl⟩
    · rintro ⟨h, rfl⟩
      cases h with
      | cons htext hrest =>
        exact bind_iff.2 ⟨_, _, yields_textOf.2 ⟨htext, rfl⟩,
          bind_iff.2 ⟨_, _, ih.2 ⟨hrest, rfl⟩, pure_iff.2 ⟨rfl, rfl⟩⟩⟩

end Access

/-! ## Giving back blocks -/

namespace Store

/-- The store with blocks given back. -/
def giveBack (s : Store) (ids : List Nat) : Store :=
  { s with
    heap := { s.heap with
      blocks := ids.foldl (fun blocks id => blocks.setIfInBounds id .freed) s.heap.blocks }
    stats := { s.stats with blocksFreed := s.stats.blocksFreed + ids.length } }

variable {s t : Store} {ids : List Nat} {id : Nat}

theorem lt_size_of_live (h : s.heap.Live id) : id < s.heap.blocks.size := by
  obtain ⟨bytes, hbytes⟩ := h
  exact (Array.getElem?_eq_some_iff.1 hbytes).1

theorem giveBack_cons (s : Store) (id : Nat) (ids : List Nat) :
    s.giveBack (id :: ids) = (s.giveBack [id]).giveBack ids := by
  simp [giveBack, Nat.add_assoc, Nat.add_comm 1]

theorem size_giveBack (s : Store) (ids : List Nat) :
    (s.giveBack ids).heap.blocks.size = s.heap.blocks.size := by
  induction ids generalizing s with
  | nil => rfl
  | cons id ids ih =>
    rw [giveBack_cons, ih]
    exact Array.size_setIfInBounds

theorem blocks_giveBack_single (s : Store) (id j : Nat) :
    (s.giveBack [id]).heap.blocks[j]? =
      if id = j then (if id < s.heap.blocks.size then some .freed else none)
      else s.heap.blocks[j]? := Array.getElem?_setIfInBounds

/-- What is given back is no longer in use. -/
theorem live_giveBack_single {j : Nat} :
    (s.giveBack [id]).heap.Live j ↔ id ≠ j ∧ s.heap.Live j := by
  unfold Heap.Live
  rw [blocks_giveBack_single]
  by_cases hj : id = j
  · rw [if_pos hj]
    constructor
    · rintro ⟨bytes, h⟩
      split_ifs at h
      cases h
    · rintro ⟨hne, -⟩
      exact absurd hj hne
  · rw [if_neg hj]
    exact ⟨fun h => ⟨hj, h⟩, fun h => h.2⟩

theorem blocks_giveBack (h : ∀ id ∈ ids, id < s.heap.blocks.size) (j : Nat) :
    (s.giveBack ids).heap.blocks[j]? = if j ∈ ids then some .freed else s.heap.blocks[j]? := by
  induction ids generalizing s with
  | nil => simp [giveBack]
  | cons id ids ih =>
    obtain ⟨hid, hids⟩ := List.forall_mem_cons.1 h
    rw [giveBack_cons, ih (by rwa [size_giveBack]), blocks_giveBack_single, if_pos hid]
    by_cases hj : id = j
    · simp [hj]
    · simp [hj, Ne.symm hj]

theorem liveBlocks_giveBack_single (h : s.heap.Live id) :
    (s.giveBack [id]).heap.liveBlocks + 1 = s.heap.liveBlocks := by
  obtain ⟨bytes, hbytes⟩ := h
  obtain ⟨hlt, hget⟩ := Array.getElem?_eq_some_iff.1 hbytes
  have hget : s.heap.blocks.toList[id] = .live bytes := by rwa [Array.getElem_toList]
  have hpos : 0 < s.heap.blocks.toList.countP Block.isLive :=
    List.countP_pos_iff.2 ⟨_, List.getElem_mem hlt, by rw [hget]; rfl⟩
  show (s.heap.blocks.setIfInBounds id .freed).toList.countP Block.isLive + 1 =
    s.heap.blocks.toList.countP Block.isLive
  rw [Array.toList_setIfInBounds, List.countP_set hlt, hget,
    if_pos (show (Block.live bytes).isLive = true from rfl),
    if_neg (show ¬ Block.freed.isLive = true from Bool.false_ne_true)]
  omega

/-- Each of the blocks is one less in use. -/
theorem liveBlocks_giveBack (hnodup : ids.Nodup) (hlive : ∀ id ∈ ids, s.heap.Live id) :
    (s.giveBack ids).heap.liveBlocks + ids.length = s.heap.liveBlocks := by
  induction ids generalizing s with
  | nil => rfl
  | cons id ids ih =>
    obtain ⟨hid, hids⟩ := List.forall_mem_cons.1 hlive
    obtain ⟨hnot, hnodup⟩ := List.nodup_cons.1 hnodup
    have hrest : ∀ j ∈ ids, (s.giveBack [id]).heap.Live j := by
      intro j hj
      refine live_giveBack_single.2 ⟨?_, hids j hj⟩
      rintro rfl
      exact hnot hj
    have hone := liveBlocks_giveBack_single hid
    have hmany := ih hnodup hrest
    rw [giveBack_cons, List.length_cons]
    omega

end Store

namespace Access

open Yields

variable {s t : Store} {values : List Value} {v w : Value} {length : Int64}

theorem freeTarget_of_none (h : v.block? = none) : freeTarget v = pure () := by
  unfold freeTarget
  split
  · cases h
  · rfl

theorem yields_freeTarget {id : Nat} (h : v.block? = some id) :
    Yields (freeTarget v) s () t ↔ s.heap.Live id ∧ t = s.giveBack [id] := by
  obtain ⟨offset, managed, rfl⟩ := Value.block?_eq_some.1 h
  unfold freeTarget
  constructor
  · intro h
    obtain ⟨u, s', hfree, hcount⟩ := bind_iff.1 h
    obtain ⟨heap, hheap, rfl⟩ := yields_update.1 hfree
    obtain ⟨bytes, hbytes, rfl⟩ := Heap.free_eq_ok.1 hheap
    exact ⟨⟨bytes, hbytes⟩, yields_count.1 hcount⟩
  · rintro ⟨⟨bytes, hbytes⟩, rfl⟩
    exact bind_iff.2 ⟨(), _, yields_update.2 ⟨_, Heap.free_eq_ok.2 ⟨bytes, hbytes, rfl⟩, rfl⟩,
      yields_count.2 rfl⟩

/-- Blocks are given back if they are different ones in use, and not otherwise. -/
theorem yields_freeTargets_iff : Yields (values.forM freeTarget) s () t ↔
    (values.filterMap Value.block?).Nodup ∧
    (∀ id ∈ values.filterMap Value.block?, s.heap.Live id) ∧
    t = s.giveBack (values.filterMap Value.block?) := by
  induction values generalizing s with
  | nil =>
    constructor
    · intro h
      obtain ⟨-, rfl⟩ := pure_iff.1 h
      exact ⟨List.nodup_nil, fun _ => nofun, rfl⟩
    · rintro ⟨-, -, rfl⟩
      exact pure_iff.2 ⟨rfl, rfl⟩
  | cons v values ih =>
    show Yields (freeTarget v >>= fun _ => values.forM freeTarget) s () t ↔ _
    rw [bind_iff]
    cases hv : v.block? with
    | none =>
      rw [List.filterMap_cons_none hv, freeTarget_of_none hv]
      constructor
      · rintro ⟨_, u, hpure, hrest⟩
        obtain ⟨-, rfl⟩ := pure_iff.1 hpure
        exact ih.1 hrest
      · intro h
        exact ⟨(), s, pure_iff.2 ⟨rfl, rfl⟩, ih.2 h⟩
    | some id =>
      rw [List.filterMap_cons_some hv, List.nodup_cons, List.forall_mem_cons, Store.giveBack_cons]
      constructor
      · rintro ⟨_, u, hfree, hrest⟩
        obtain ⟨hlive, rfl⟩ := (yields_freeTarget hv).1 hfree
        obtain ⟨hnodup, hall, rfl⟩ := ih.1 hrest
        refine ⟨⟨?_, hnodup⟩, ⟨hlive, ?_⟩, rfl⟩
        · intro hmem
          exact (Store.live_giveBack_single.1 (hall id hmem)).1 rfl
        · intro j hj
          exact (Store.live_giveBack_single.1 (hall j hj)).2
      · rintro ⟨⟨hnot, hnodup⟩, ⟨hlive, hall⟩, rfl⟩
        refine ⟨(), _, (yields_freeTarget hv).2 ⟨hlive, rfl⟩, ih.2 ⟨hnodup, ?_, rfl⟩⟩
        intro j hj
        refine Store.live_giveBack_single.2 ⟨?_, hall j hj⟩
        rintro rfl
        exact hnot hj

theorem yields_freeArgv_iff : Yields (freeArgv v) s () t ↔
    ∃ element items, s.heap.IsArray v element items ∧ (blocksOf items).Nodup ∧
      (∀ id ∈ blocksOf items, s.heap.Live id) ∧
      t = (s.count fun c => { c with argvFrees := c.argvFrees + 1 }).giveBack (blocksOf items) := by
  unfold freeArgv
  constructor
  · intro h
    obtain ⟨id, u, hid, hread⟩ := bind_iff.1 h
    obtain ⟨⟨element, items⟩, u', harray, hrest⟩ := bind_iff.1 hread
    obtain ⟨hid, rfl⟩ := yields_ofExcept.1 hid
    obtain ⟨harray, rfl⟩ := yields_read.1 harray
    obtain ⟨_, u, hcount, hfree⟩ := bind_iff.1 hrest
    obtain rfl := yields_count.1 hcount
    obtain ⟨pins, harray⟩ := Heap.array_eq_ok.1 harray
    refine ⟨element, items, ⟨id, pins, ?_, harray⟩, yields_freeTargets_iff.1 hfree⟩
    cases v <;> cases hid
    rfl
  · rintro ⟨element, items, ⟨id, pins, rfl, harray⟩, hfree⟩
    exact bind_iff.2 ⟨id, s, yields_ofExcept.2 ⟨rfl, rfl⟩, bind_iff.2 ⟨_, s, yields_read.2
      ⟨Heap.array_eq_ok.2 ⟨pins, harray⟩, rfl⟩, bind_iff.2 ⟨(), _, yields_count.2 rfl,
        yields_freeTargets_iff.2 hfree⟩⟩⟩

/-! ## Copying arrays -/

theorem getElem?_overwrite {items targets : Array Value} {n : Nat} (hitems : n ≤ items.size)
    (htargets : n ≤ targets.size) (i : Nat) :
    (items.extract 0 n ++ targets.extract n targets.size)[i]? =
      if i < n then items[i]? else targets[i]? := by
  have hsize : (items.extract 0 n).size = n := by
    rw [Array.size_extract]
    omega
  by_cases hi : i < n
  · rw [if_pos hi, Array.getElem?_append_left (by omega), Array.getElem?_extract, if_pos (by omega),
      Nat.zero_add]
  · rw [if_neg hi, Array.getElem?_append_right (by omega), hsize, Array.getElem?_extract,
      Nat.add_sub_cancel' (Nat.le_of_not_lt hi)]
    by_cases hlt : i < targets.size
    · exact if_pos (by omega)
    · rw [if_neg (by omega), Array.getElem?_eq_none (Nat.le_of_not_lt hlt)]

theorem yields_arrayCopy_iff : Yields (arrayCopy v w length) s () t ↔
    ∃ source destination element items targets pins pins', v = .object source ∧
      w = .object destination ∧ s.heap.objects[source]? = some (.array element items pins) ∧
      s.heap.objects[destination]? = some (.array element targets pins') ∧
      0 ≤ length.toInt ∧ length.toInt.toNat ≤ items.size ∧ length.toInt.toNat ≤ targets.size ∧
      t = { s with heap := { s.heap with
        objects := s.heap.objects.setIfInBounds destination (.array element
          (items.extract 0 length.toInt.toNat ++ targets.extract length.toInt.toNat targets.size)
          pins') } } := by
  have hsign : length < 0 ↔ ¬ 0 ≤ length.toInt := by
    rw [Int64.lt_iff_toInt_lt]
    exact Int.not_le.symm
  unfold arrayCopy
  constructor
  · intro h
    obtain ⟨source, u, hv, h₁⟩ := bind_iff.1 h
    obtain ⟨destination, u', hw, h₂⟩ := bind_iff.1 h₁
    obtain ⟨hv, rfl⟩ := yields_ofExcept.1 hv
    obtain ⟨hw, rfl⟩ := yields_ofExcept.1 hw
    by_cases hpos : length < 0
    · rw [if_pos hpos] at h₂
      obtain ⟨_, _, hthrow, -⟩ := bind_iff.1 h₂
      exact absurd hthrow not_throw
    rw [if_neg hpos] at h₂
    obtain ⟨⟨element, items⟩, u, hitems, h₃⟩ := bind_iff.1 h₂
    obtain ⟨hitems, rfl⟩ := yields_read.1 hitems
    dsimp only at h₃
    by_cases hsize : items.size < length.toInt.toNat
    · rw [if_pos hsize] at h₃
      obtain ⟨_, _, hthrow, -⟩ := bind_iff.1 h₃
      exact absurd hthrow not_throw
    rw [if_neg hsize] at h₃
    obtain ⟨⟨element', targets⟩, u', htargets, h₄⟩ := bind_iff.1 h₃
    obtain ⟨htargets, rfl⟩ := yields_read.1 htargets
    dsimp only at h₄
    by_cases helement : element' = element
    swap
    · rw [if_pos helement] at h₄
      obtain ⟨_, _, hthrow, -⟩ := bind_iff.1 h₄
      exact absurd hthrow not_throw
    subst helement
    rw [if_neg (not_not_intro rfl)] at h₄
    by_cases hsize' : targets.size < length.toInt.toNat
    · rw [if_pos hsize'] at h₄
      obtain ⟨_, _, hthrow, -⟩ := bind_iff.1 h₄
      exact absurd hthrow not_throw
    rw [if_neg hsize'] at h₄
    obtain ⟨heap, hheap, rfl⟩ := yields_update.1 h₄
    obtain ⟨pins, hitems⟩ := Heap.array_eq_ok.1 hitems
    obtain ⟨element, old, pins', hold, rfl⟩ := Heap.setElements_eq_ok.1 hheap
    obtain ⟨pins'', htargets⟩ := Heap.array_eq_ok.1 htargets
    rw [hold] at htargets
    cases htargets
    refine ⟨source, destination, _, items, targets, pins, pins', ?_, ?_, hitems, hold,
      Decidable.not_not.1 (mt hsign.2 hpos), Nat.le_of_not_lt hsize, Nat.le_of_not_lt hsize', rfl⟩
    · cases v <;> cases hv
      rfl
    · cases w <;> cases hw
      rfl
  · rintro ⟨source, destination, element, items, targets, pins, pins', rfl, rfl, hitems, htargets,
      hpos, hsize, hsize', rfl⟩
    refine bind_iff.2 ⟨source, s, yields_ofExcept.2 ⟨rfl, rfl⟩, bind_iff.2 ⟨destination, s,
      yields_ofExcept.2 ⟨rfl, rfl⟩, ?_⟩⟩
    rw [if_neg fun h => hsign.1 h hpos]
    refine bind_iff.2 ⟨_, s, yields_read.2 ⟨Heap.array_eq_ok.2 ⟨pins, hitems⟩, rfl⟩, ?_⟩
    dsimp only
    rw [if_neg (Nat.not_lt.2 hsize)]
    refine bind_iff.2 ⟨_, s, yields_read.2 ⟨Heap.array_eq_ok.2 ⟨pins', htargets⟩, rfl⟩, ?_⟩
    dsimp only
    rw [if_neg (not_not_intro rfl), if_neg (Nat.not_lt.2 hsize')]
    exact yields_update.2 ⟨_, Heap.setElements_eq_ok.2 ⟨element, targets, pins', htargets, rfl⟩, rfl⟩

end Access

end ManagedC
