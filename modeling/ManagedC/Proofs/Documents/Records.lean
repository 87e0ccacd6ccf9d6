import ManagedC.Json.Record
import ManagedC.Proofs.Documents.Text

/-!
# Documents that describe values

A reader of typed data spends one level on each array or object that it enters, so a document can be
read with as many levels as it nests (`depth`). `Describes` says that it then gives a certain value.
There is one lemma for each way in which documents are put together, and every type has only to say
which of them it uses. Main statement: text written for such a document is read back as the value
(`Describes.parse`).
-/

namespace ManagedC.Json

mutual

/-- How many arrays and objects are open at once. -/
def depth : Json → Nat
  | .arr es => elementsDepth es + 1
  | .obj ms => membersDepth ms + 1
  | _ => 0

/-- How many arrays and objects are open at once inside of elements. -/
def elementsDepth : List Json → Nat
  | [] => 0
  | e :: es => max e.depth (elementsDepth es)

/-- How many arrays and objects are open at once inside of the values of members. -/
def membersDepth : List (Option String × Json) → Nat
  | [] => 0
  | (_, value) :: ms => max value.depth (membersDepth ms)

end

/-- A document describes a value to a reader: given a level for each array and object that is open
at once, the reader finds the value. -/
structure Describes {α : Type} (read : Nat → Json → Option α) (j : Json) (x : α) : Prop where
  integral : j.isIntegral = true
  /-- The reader finds the value. -/
  reads : ∀ levels, j.depth ≤ levels → read levels j = some x

variable {α β : Type} {read : Nat → Json → Option α} {x : α}

/-- A value is read back from the text of the document that describes it. -/
theorem Describes.parse {j : Json} (h : Describes read j x) {levels : Nat}
    (hdepth : j.depth ≤ levels) : (parse? j.pretty).bind (read levels) = some x := by
  rw [parse?_pretty h.integral, Option.bind_some, h.reads levels hdepth]

/-! ## Values without parts -/

@[simp] theorem text?_ofText (text : String) : text? (ofText text) = some text := rfl

@[simp] theorem bool?_bool (value : Bool) : bool? (.bool value) = some value := rfl

theorem natBelow?_ofNat {n bound : Nat} (h : n < bound) : natBelow? bound (ofNat n) = some n := by
  have hrange : (0 : Int) ≤ n ∧ (n : Int) < bound := by omega
  simp [natBelow?, intWithin?, ofNat, hrange]

theorem int32?_toInt (value : Int32) : int32? (.int value.toInt) = some value := by
  have hrange : -(2 ^ 31) ≤ value.toInt ∧ value.toInt < 2 ^ 31 := ⟨value.le_toInt, value.toInt_lt⟩
  simp only [int32?, intWithin?, hrange, decide_true, Bool.and_self, if_true, Option.map_some,
    Int32.ofInt_toInt]

theorem int64?_toInt (value : Int64) : int64? (.int value.toInt) = some value := by
  have hrange : -(2 ^ 63) ≤ value.toInt ∧ value.toInt < 2 ^ 63 := ⟨value.le_toInt, value.toInt_lt⟩
  simp only [int64?, intWithin?, hrange, decide_true, Bool.and_self, if_true, Option.map_some,
    Int64.ofInt_toInt]

@[simp] theorem depth_null : null.depth = 0 := rfl

@[simp] theorem depth_bool (value : Bool) : (bool value).depth = 0 := rfl

@[simp] theorem depth_int (value : Int) : (int value).depth = 0 := rfl

@[simp] theorem depth_ofText (text : String) : (ofText text).depth = 0 := rfl

@[simp] theorem depth_ofNat (n : Nat) : (ofNat n).depth = 0 := rfl

@[simp] theorem isIntegral_null : null.isIntegral = true := rfl

@[simp] theorem isIntegral_bool (value : Bool) : (bool value).isIntegral = true := rfl

@[simp] theorem isIntegral_int (value : Int) : (int value).isIntegral = true := rfl

@[simp] theorem isIntegral_ofText (text : String) : (ofText text).isIntegral = true := rfl

@[simp] theorem isIntegral_ofNat (n : Nat) : (ofNat n).isIntegral = true := rfl

/-! ## Lists -/

theorem depth_arr (es : List Json) : (arr es).depth = elementsDepth es + 1 := rfl

theorem areIntegral_iff {es : List Json} :
    areIntegral es = true ↔ ∀ e ∈ es, e.isIntegral = true := by
  induction es with
  | nil => simp [areIntegral]
  | cons e es ih => simp [areIntegral, ih]

/-- Elements that are described one by one are read one by one. -/
theorem mapM_describes {write : α → Json} {xs : List α}
    (h : ∀ x ∈ xs, Describes read (write x) x) {levels : Nat}
    (hdepth : elementsDepth (xs.map write) ≤ levels) :
    (xs.map write).mapM (read levels) = some xs := by
  induction xs with
  | nil => rfl
  | cons x xs ih =>
    obtain ⟨hx, hxs⟩ := List.forall_mem_cons.1 h
    simp only [List.map_cons, elementsDepth] at hdepth
    simp [List.mapM_cons, hx.reads levels (by omega), ih hxs (by omega)]

/-- The array of the documents of elements describes the list of them. -/
theorem Describes.list {write : α → Json} {xs : List α} (h : ∀ x ∈ xs, Describes read (write x) x) :
    Describes (list? read) (.arr (xs.map write)) xs where
  integral := areIntegral_iff.2 (List.forall_mem_map.2 fun x hx => (h x hx).integral)
  reads levels hdepth := by
    obtain ⟨levels, rfl⟩ : ∃ l, levels = l + 1 := ⟨levels - 1, by rw [depth_arr] at hdepth; omega⟩
    exact mapM_describes h (Nat.le_of_succ_le_succ hdepth)

/-! ## Records -/

/-- The member with a key in a record. -/
theorem onlyMember?_of_mem {members : List (String × Json)} (hkeys : (members.map (·.1)).Nodup)
    {m : String × Json} (hm : m ∈ members) :
    onlyMember? m.1 (members.map fun m => (some m.1, m.2)) = some (some m.2) := by
  have hfilter : (members.map fun m => (some m.1, m.2)).filter (fun m' => m'.1 == some m.1) =
      [(some m.1, m.2)] := by
    induction members with
    | nil => cases hm
    | cons m' members ih =>
      rw [List.map_cons, List.nodup_cons] at hkeys
      rcases List.mem_cons.1 hm with rfl | hm
      · have hnone : ∀ m' ∈ members, m'.1 ≠ m.1 := fun m' hm' he =>
          hkeys.1 (List.mem_map.2 ⟨m', hm', he⟩)
        simpa [List.filter_map, List.filter_eq_nil_iff] using hnone
      · have hne : m'.1 ≠ m.1 := fun he => hkeys.1 (List.mem_map.2 ⟨m, hm, he.symm⟩)
        simpa [hne] using ih hkeys.2 hm
  rw [onlyMember?, hfilter]

/-- The fields of a record are read from its members, if these are its fields in order. -/
@[simp] theorem fields?_record {fields : List Field} {members : List (String × Json)}
    (h : fields.map (·.key) = members.map (·.1)) (hkeys : (members.map (·.1)).Nodup) :
    fields? fields (record members) = some (members.map fun m => some m.2) := by
  have htexts : (members.map fun m => (some m.1, m.2)).all (·.1.isSome) = true := by simp
  have hmembers : ∀ ms : List (String × Json), ms ⊆ members →
      (ms.map (·.1)).mapM (fun key => onlyMember? key (members.map fun m => (some m.1, m.2))) =
        some (ms.map fun m => some m.2) := by
    intro ms hsub
    induction ms with
    | nil => rfl
    | cons m ms ih =>
      obtain ⟨hm, hms⟩ := List.cons_subset.1 hsub
      simp [List.mapM_cons, onlyMember?_of_mem hkeys hm, ih hms]
  have hall := hmembers members (List.Subset.refl _)
  rw [← h, List.mapM_map] at hall
  simp only [record, fields?, htexts, if_true]
  exact hall

@[simp] theorem depth_record_nil : (record []).depth = 1 := rfl

@[simp] theorem depth_record_cons (m : String × Json) (members : List (String × Json)) :
    (record (m :: members)).depth = max (m.2.depth + 1) (record members).depth :=
  (Nat.add_max_add_right _ _ 1).symm

@[simp] theorem isIntegral_record_nil : (record []).isIntegral = true := rfl

@[simp] theorem isIntegral_record_cons (m : String × Json) (members : List (String × Json)) :
    (record (m :: members)).isIntegral = (m.2.isIntegral && (record members).isIntegral) := rfl

@[simp] theorem depth_variant (name : String) (payload : Json) :
    (variant name payload).depth = payload.depth + 1 := by
  simp [variant]

@[simp] theorem isIntegral_variant (name : String) (payload : Json) :
    (variant name payload).isIntegral = payload.isIntegral := by
  simp [variant]

/-- A record is entered with one of the levels. -/
theorem Describes.record {members : List (String × Json)}
    (hintegral : (record members).isIntegral = true)
    (h : ∀ levels, (Json.record members).depth ≤ levels + 1 →
      read (levels + 1) (Json.record members) = some x) :
    Describes read (Json.record members) x where
  integral := hintegral
  reads levels hdepth := by
    cases levels with
    | zero => exact absurd hdepth (Nat.not_succ_le_zero _)
    | succ levels => exact h levels hdepth

/-- So is a variant with a payload. -/
theorem Describes.variant {name : String} {payload : Json} (hintegral : payload.isIntegral = true)
    (h : ∀ levels, payload.depth ≤ levels →
      read (levels + 1) (Json.variant name payload) = some x) :
    Describes read (Json.variant name payload) x := by
  refine .record ((isIntegral_variant name payload).trans hintegral) fun levels hdepth => ?_
  change (Json.variant name payload).depth ≤ levels + 1 at hdepth
  rw [depth_variant] at hdepth
  exact h levels (Nat.le_of_succ_le_succ hdepth)

/-! ## Options and names -/

/-- The document of a value or `null` describes an option. -/
theorem Describes.nullable {write : α → Json} {o : Option α}
    (h : ∀ x ∈ o, Describes read (write x) x) (hnull : ∀ x, write x ≠ .null) :
    Describes (fun levels => nullable? (read levels)) ((o.map write).getD .null) o := by
  cases o with
  | none => exact ⟨rfl, fun _ _ => rfl⟩
  | some x =>
    have hx := h x rfl
    refine ⟨hx.integral, fun levels hdepth => ?_⟩
    change nullable? (read levels) (write x) = some (some x)
    rw [nullable?.eq_2 _ _ (hnull x), hx.reads levels hdepth]
    rfl

theorem describes_text (text : String) : Describes (fun _ => text?) (ofText text) text :=
  ⟨rfl, fun _ _ => rfl⟩

theorem describes_ofText? (text : Option String) :
    Describes (fun _ => nullable? text?) (ofText? text) text :=
  Describes.nullable (fun text _ => describes_text text) nofun

@[simp] theorem optional?_some (f : Json → Option α) (j : Json) :
    optional? f (some j) = nullable? f j := rfl

@[simp] theorem nullable?_null (f : Json → Option α) : nullable? f .null = some none := rfl

@[simp] theorem withDefault?_some (f : Json → Option α) (default : α) (j : Json) :
    withDefault? f default (some j) = f j := rfl

@[simp] theorem variant?_variant (name : String) (payload : Json) :
    variant? (variant name payload) = some (name, some payload) := rfl

@[simp] theorem variant?_ofText (name : String) : variant? (ofText name) = some (name, none) := rfl

/-- One of a closed list whose names differ is found by its name. -/
theorem describes_name {name : α → String} {all : List α} (hall : x ∈ all)
    (hname : all.Pairwise fun a b => name a ≠ name b) :
    Describes (named? name all) (ofText (name x)) x := by
  refine ⟨rfl, fun levels _ => ?_⟩
  change all.find? (fun a => name a == name x) = some x
  induction all with
  | nil => cases hall
  | cons a all ih =>
    obtain ⟨ha, hpairwise⟩ := List.pairwise_cons.1 hname
    rcases List.mem_cons.1 hall with rfl | hx
    · simp
    · rw [List.find?_cons_of_neg (by simpa using ha x hx)]
      exact ih hx hpairwise

end ManagedC.Json
