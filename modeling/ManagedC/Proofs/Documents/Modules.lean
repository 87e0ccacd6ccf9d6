import ManagedC.Target.Module
import ManagedC.Proofs.Documents.Records

/-!
# Modules are read back

Labels are numbers of 32 bits, offsets and the numbers of methods have 64 bits. A module that keeps to
this is described by its document. In it a label table is an object with the labels as keys; the
entries come in order, so binding them one after the other makes the same table again. Main statement:
`Module.describes`.
-/

namespace ManagedC

open Json (Describes field optionalField)

/-! ## Types and instructions -/

theorem TargetType.describes (t : TargetType) : Describes ofJson? t.toJson t := by
  have hatom : ∀ a ∈ atoms, Describes ofJson? (.ofText a.name) a := by
    refine fun a ha => ⟨rfl, fun levels hdepth => ?_⟩
    have hname := (Json.describes_name ha (by decide)).reads levels hdepth
    cases levels <;> simpa [ofJson?] using hname
  induction t with
  | pointer t ih | byRef t ih | array t ih =>
    exact .variant ih.integral fun levels hdepth => by simp [ofJson?, ih.reads levels hdepth]
  | _ => exact hatom _ (by decide)

theorem TargetType.toJson_ne_null (t : TargetType) : t.toJson ≠ .null := by
  cases t <;> nofun

theorem MethodRef.describes (m : MethodRef) : Describes ofJson? m.toJson m := by
  have hreturn := m.returnType.describes
  have hparameters := Describes.list fun t (_ : t ∈ m.parameterTypes) => t.describes
  refine .record (by simp [hreturn.integral, hparameters.integral]) fun levels hdepth => ?_
  simp at hdepth
  simp [ofJson?, field, hreturn.reads levels (by omega),
    hparameters.reads levels (by omega)]

theorem Helper.describes (h : Helper) : Describes ofJson? (.ofText h.name) h := by
  have hall : h ∈ all := by cases h <;> decide
  exact Json.describes_name hall (by decide)

namespace Instruction

theorem describes_plain {i : Instruction} (h : i ∈ plain) : Describes ofJson? i.toJson i := by
  have hoperand : ∀ i ∈ plain, i.operand?.isNone = true := by decide
  have hjson : i.toJson = .ofText i.name := by
    rw [toJson, Option.isNone_iff_eq_none.1 (hoperand i h)]
  refine hjson ▸ ⟨rfl, fun levels hdepth => ?_⟩
  have hname := (Json.describes_name h (by decide)).reads levels hdepth
  simp [ofJson?, hname]

/-- An instruction with an operand is described if its operand is read under its name. -/
theorem describes_operand {i : Instruction} {operand : Json} (h : i.operand? = some operand)
    (hnull : operand ≠ .null) (hintegral : operand.isIntegral = true)
    (hread : ∀ levels, operand.depth ≤ levels → ofOperand? levels i.name operand = some i) :
    Describes ofJson? i.toJson i := by
  have hjson : i.toJson = .variant i.name operand := by rw [toJson, h]
  rw [hjson]
  refine .variant hintegral fun levels hdepth => ?_
  have hplain : Json.isNoPayload (some operand) = false := by
    cases operand <;> first | rfl | exact absurd rfl hnull
  simp [ofJson?, Json.named?, hplain, hread levels hdepth]

theorem slot?_ofNat (slot : UInt16) : slot? (.ofNat slot.toNat) = some slot := by
  rw [slot?, Json.natBelow?_ofNat slot.toNat_lt, Option.map_some, UInt16.ofNat_toNat]

theorem describes {i : Instruction} (h : ∀ label ∈ i.target?, label < 2 ^ 32) :
    Describes ofJson? i.toJson i := by
  cases i with
  | loadArgument slot | storeArgument slot | loadLocal slot | storeLocal slot =>
    exact describes_operand rfl nofun rfl fun levels _ => by simp [ofOperand?, name, slot?_ofNat]
  | constInt32 value =>
    exact describes_operand rfl nofun rfl fun levels _ => by
      simp [ofOperand?, name, Json.int32?_toInt]
  | constInt64 value =>
    exact describes_operand rfl nofun rfl fun levels _ => by
      simp [ofOperand?, name, Json.int64?_toInt]
  | branch target | leave target =>
    have htarget := Json.natBelow?_ofNat (h target rfl)
    exact describes_operand rfl nofun rfl fun levels _ => by
      simp [ofOperand?, name, label?, htarget]
  | branchIf condition target =>
    have htarget := Json.natBelow?_ofNat (h target rfl)
    refine describes_operand rfl nofun rfl fun levels _ => ?_
    cases condition <;> simp [ofOperand?, name, label?, htarget]
  | call method =>
    exact describes_operand rfl nofun method.describes.integral fun levels hdepth => by
      simp [ofOperand?, name, method.describes.reads levels hdepth]
  | callHelper helper =>
    exact describes_operand rfl nofun rfl fun levels hdepth => by
      simp [ofOperand?, name, helper.describes.reads levels hdepth]
  | newArray t | elementAddress t | load t | store t =>
    exact describes_operand rfl t.toJson_ne_null t.describes.integral fun levels hdepth => by
      simp [ofOperand?, name, t.describes.reads levels hdepth]
  | binary op | compare op => cases op <;> exact describes_plain (by decide)
  | _ => exact describes_plain (by decide)

end Instruction

/-! ## Label tables -/

namespace LabelTable

/-- A label is read back from the key that it is written as. -/
theorem labelOfKey?_toString {label : Label} (h : label < 2 ^ 32) :
    labelOfKey? (toString label) = some label := by
  have hall : (Nat.toDigits 10 label).all Text.isDigit = true :=
    List.all_eq_true.2 fun c hc => Json.isDigit_of_mem_toDigits hc
  have hvalue := Json.natOfDigits_toDigits label
  have hzero := @Json.eq_zero_of_head?_toDigits label
  have hchars : (toString label).toList = Nat.toDigits 10 label := Nat.toList_repr
  rw [labelOfKey?, hchars]
  cases hdigits : Nat.toDigits 10 label with
  | nil => exact absurd hdigits Nat.toDigits_ne_nil
  | cons c cs =>
    rw [hdigits] at hall hvalue hzero
    have hleading : c ≠ '0' ∨ cs = [] := by
      refine or_iff_not_imp_left.2 fun hc => ?_
      have hlabel := hzero (by simpa using hc)
      subst hlabel
      exact (List.cons.inj hdigits).2.symm
    simp [hall, hleading, hvalue, h]

/-- A label that comes after all others is bound at the end. -/
theorem insertEntry_append {label : Label} {offset : Nat} :
    ∀ {entries : List (Label × Nat)}, (∀ e ∈ entries, e.1 < label) →
      insertEntry label offset entries = entries ++ [(label, offset)]
  | [], _ => rfl
  | (l, o) :: entries, h => by
    obtain ⟨hl, hrest⟩ := List.forall_mem_cons.1 h
    rw [insertEntry, if_neg (Nat.lt_asymm hl), if_neg (Nat.ne_of_gt hl), insertEntry_append hrest,
      List.cons_append]

/-- Binding entries in order, after those that are bound already, gives the table of all. -/
theorem foldlM_insert {t' : LabelTable} (entries : List (Label × Nat))
    (hbound : ∀ e ∈ entries, e.1 < 2 ^ 32 ∧ e.2 < 2 ^ 64) :
    ∀ {t : LabelTable}, t'.entries = t.entries ++ entries →
      (entries.map fun e => (some (toString e.1), Json.ofNat e.2)).foldlM (fun t m => do
        let label ← labelOfKey? (← m.1)
        return t.insert label (← m.2.index?)) t = some t' := by
  induction entries with
  | nil =>
    intro t ht
    obtain ⟨bound, hsorted⟩ := t
    obtain ⟨bound', hsorted'⟩ := t'
    obtain rfl : bound' = bound := by simpa using ht
    rfl
  | cons e entries ih =>
    intro t ht
    obtain ⟨⟨hlabel, hoffset⟩, hrest⟩ := List.forall_mem_cons.1 hbound
    have hlast : ∀ e' ∈ t.entries, e'.1 < e.1 := by
      have hsorted := ht ▸ t'.sorted
      exact fun e' he' => (List.pairwise_append.1 hsorted).2.2 e' he' e List.mem_cons_self
    have hinsert : t'.entries = (t.insert e.1 e.2).entries ++ entries := by
      change _ = insertEntry e.1 e.2 t.entries ++ entries
      rw [ht, insertEntry_append hlast, List.append_assoc, List.singleton_append]
    have hbinds : (labelOfKey? (toString e.1)).bind (fun label =>
        (Json.ofNat e.2).index?.bind fun offset => some (t.insert label offset)) =
          some (t.insert e.1 e.2) := by
      rw [labelOfKey?_toString hlabel, Json.index?, Json.natBelow?_ofNat hoffset]
      rfl
    rw [List.map_cons, List.foldlM_cons]
    exact (congrArg (Option.bind · _) hbinds).trans (ih hrest hinsert)

theorem describes {t : LabelTable} (h : ∀ e ∈ t.entries, e.1 < 2 ^ 32 ∧ e.2 < 2 ^ 64) :
    Describes ofJson? t.toJson t := by
  refine ⟨?_, fun levels hdepth => ?_⟩
  · unfold toJson
    induction t.entries with
    | nil => rfl
    | cons e entries ih => exact ih
  · cases levels with
    | zero => exact absurd hdepth (Nat.not_succ_le_zero _)
    | succ levels =>
      rw [toJson, Json.record, List.map_map]
      exact foldlM_insert t.entries h rfl

end LabelTable

/-! ## Methods -/

theorem MethodAttributes.describes (a : MethodAttributes) : Describes ofJson? a.toJson a := by
  exact .record rfl fun levels _ => by simp [ofJson?, field]

theorem MethodParameter.describes (p : MethodParameter) : Describes ofJson? p.toJson p := by
  have hname := Json.describes_ofText? p.name
  have htype := p.type.describes
  refine .record (by simp [hname.integral, htype.integral]) fun levels hdepth => ?_
  simp at hdepth
  simp [ofJson?, field, hname.reads levels (by omega), htype.reads levels (by omega)]

theorem LocalVariable.describes (v : LocalVariable) : Describes ofJson? v.toJson v := by
  have hname := Json.describes_ofText? v.name
  have htype := v.type.describes
  refine .record (by simp [hname.integral, htype.integral]) fun levels hdepth => ?_
  simp at hdepth
  simp [ofJson?, field, hname.reads levels (by omega), htype.reads levels (by omega)]

/-- The labels of a protected region have 32 bits. -/
structure Handler.FitsWidths (h : Handler) : Prop where
  /-- The start of the protected region. -/
  tryStart : h.tryStart < 2 ^ 32
  /-- The end of the protected region. -/
  tryEnd : h.tryEnd < 2 ^ 32
  handlerStart : h.handlerStart < 2 ^ 32
  handlerEnd : h.handlerEnd < 2 ^ 32

theorem Handler.describes {h : Handler} (hfits : h.FitsWidths) : Describes ofJson? h.toJson h := by
  refine .record rfl fun levels _ => ?_
  simp [ofJson?, field, Instruction.label?, Json.natBelow?_ofNat hfits.tryStart,
    Json.natBelow?_ofNat hfits.tryEnd, Json.natBelow?_ofNat hfits.handlerStart,
    Json.natBelow?_ofNat hfits.handlerEnd]

/-- The labels in the code of a method have 32 bits, and their offsets 64 bits. -/
structure MethodBody.FitsWidths (b : MethodBody) : Prop where
  /-- The labels that instructions jump to. -/
  targets : ∀ i ∈ b.instructions, ∀ label ∈ i.target?, label < 2 ^ 32
  /-- The labels that are bound, and their offsets. -/
  labels : ∀ e ∈ b.labels.entries, e.1 < 2 ^ 32 ∧ e.2 < 2 ^ 64
  /-- The labels of the protected regions. -/
  handlers : ∀ h ∈ b.handlers, h.FitsWidths

theorem MethodBody.describes {b : MethodBody} (h : b.FitsWidths) : Describes ofJson? b.toJson b :=
    by
  have hinstructions : Describes (Json.list? Instruction.ofJson?)
      (.arr (b.instructions.toList.map Instruction.toJson)) b.instructions.toList :=
    .list fun i hi => Instruction.describes (h.targets i (Array.mem_toList_iff.1 hi))
  have hlabels := LabelTable.describes h.labels
  have hhandlers : Describes (Json.list? Handler.ofJson?) (.arr (b.handlers.map Handler.toJson))
      b.handlers := .list fun r hr => Handler.describes (h.handlers r hr)
  refine .record ?_ fun levels hdepth => ?_
  · simp [hinstructions.integral, hlabels.integral, hhandlers.integral]
  · simp at hdepth
    simp [ofJson?, field, hinstructions.reads levels (by omega),
      hlabels.reads levels (by omega), hhandlers.reads levels (by omega)]

theorem Method.describes {m : Method} (h : m.body.FitsWidths) : Describes ofJson? m.toJson m := by
  have hattributes := m.attributes.describes
  have hreturn := m.returnType.describes
  have hparameters := Describes.list fun p (_ : p ∈ m.parameters) => p.describes
  have hlocals := Describes.list fun v (_ : v ∈ m.locals.toList) => v.describes
  have hbody := MethodBody.describes h
  refine .record ?_ fun levels hdepth => ?_
  · simp [hattributes.integral, hreturn.integral, hparameters.integral, hlocals.integral,
      hbody.integral]
  · simp at hdepth
    simp [ofJson?, field, hattributes.reads levels (by omega),
      hreturn.reads levels (by omega), hparameters.reads levels (by omega),
      hlocals.reads levels (by omega), hbody.reads levels (by omega)]

/-! ## Modules -/

/-- The labels in the code of the methods have 32 bits, their offsets and the number of the method
that the program starts with 64 bits. -/
structure Module.FitsWidths (m : Module) : Prop where
  /-- The code of the methods. -/
  bodies : ∀ method ∈ m.methods, method.body.FitsWidths
  /-- The number of the method that the program starts with. -/
  entryPoint : ∀ id ∈ m.entryPoint, id < 2 ^ 64

theorem Module.describes {m : Module} (h : m.FitsWidths) : Describes ofJson? m.toJson m := by
  have hmethods : Describes (Json.list? Method.ofJson?)
      (.arr (m.methods.toList.map Method.toJson)) m.methods.toList :=
    .list fun method hm => Method.describes (h.bodies method (Array.mem_toList_iff.1 hm))
  have hentryPoint : Describes (fun _ => Json.nullable? Json.index?)
      ((m.entryPoint.map Json.ofNat).getD .null) m.entryPoint :=
    .nullable (fun id hid => ⟨rfl, fun _ _ => Json.natBelow?_ofNat (h.entryPoint id hid)⟩) nofun
  refine .record (by simp [hmethods.integral, hentryPoint.integral]) fun levels hdepth => ?_
  simp at hdepth
  simp [ofJson?, field, hmethods.reads levels (by omega),
    hentryPoint.reads levels (by omega)]

end ManagedC
