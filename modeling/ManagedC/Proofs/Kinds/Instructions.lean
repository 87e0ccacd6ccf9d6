import ManagedC.Proofs.Emit.Growth
import ManagedC.Proofs.Kinds.Lending
import ManagedC.Proofs.Run.Operands

/-!
# Kinds of values

The machine does not keep the types of a program, but the code of an expression of an integer type is
meant to leave an integer. A `Kind` says whether a value on the stack must be one, and of the values of
the starter, what they may refer to. What an instruction does to the kinds on the stack is
`Instruction.Turns`. Two instructions may leave something else than
an integer where one is expected (`Activation.Mixes`): one that loads an integer from a managed array
that holds something else there, and the subtraction for a difference of two pointers, if the right one
is an integer in fact. Main statement: every other instruction turns kinds as it should
(`Activation.Executes.turns`).
-/

namespace ManagedC

/-- What is known of a value. -/
inductive Kind where
  /-- It is an integer. -/
  | number
  /-- It refers to what the starter lends. -/
  | lent
  /-- It refers to what the starter has made. -/
  | made
  /-- Nothing. -/
  | any
  deriving DecidableEq

variable {first : Nat}

namespace Kind

/-- The values of a kind, if what the starter has made is numbered from a number on. -/
def Allows (first : Nat) : Kind → Value → Prop
  | .number, v => ∃ n, v = .int n
  | .lent, v => v.Within (.lent first)
  | .made, v => v.Within (.made first)
  | .any, _ => True

/-- The less is known, the higher is the rank. -/
def rank : Kind → Nat
  | .number => 0
  | .lent => 1
  | .made => 2
  | .any => 3

/-- The values of one kind are values of the other. -/
def Within (k l : Kind) : Prop := k.rank ≤ l.rank

instance (k l : Kind) : Decidable (k.Within l) := inferInstanceAs (Decidable (k.rank ≤ l.rank))

@[simp] theorem Within.rfl {k : Kind} : k.Within k := Nat.le_refl _

@[simp] theorem within_any (k : Kind) : k.Within .any := by
  cases k <;> decide

@[simp] theorem number_within (k : Kind) : number.Within k := Nat.zero_le _

@[simp] theorem allows_any (v : Value) : any.Allows first v := trivial

theorem allows_int (k : Kind) (n : Int64) : k.Allows first (.int n) := by
  cases k with
  | number => exact ⟨n, rfl⟩
  | _ => trivial

theorem Within.allows {k l : Kind} {v : Value} (h : k.Within l) (hv : k.Allows first v) :
    l.Allows first v := by
  cases k with
  | number =>
    obtain ⟨n, rfl⟩ := hv
    exact allows_int l n
  | lent =>
    cases l with
    | number => exact absurd h (by decide)
    | lent => exact hv
    | made => exact Value.Within.made hv
    | any => trivial
  | made =>
    cases l with
    | number | lent => exact absurd h (by decide)
    | made => exact hv
    | any => trivial
  | any =>
    cases l with
    | number | lent | made => exact absurd h (by decide)
    | any => trivial

/-- A stored number is a number still. -/
theorem Allows.narrow {k : Kind} {v : Value} (type : TargetType) (h : k.Allows first v) :
    k.Allows first (v.narrow type) := by
  cases k with
  | number =>
    obtain ⟨n, rfl⟩ := h
    exact ⟨type.narrow n, rfl⟩
  | lent | made => exact Value.Within.narrow h
  | any => trivial

end Kind

/-- The kind of the values of a type. The host has made the array of strings, the starter all others. -/
def TargetType.kind (type : TargetType) : Kind :=
  if type.isInteger then .number
  else
    match type with
    | .byRef _ => .lent
    | .array .string => .any
    | .array _ => .made
    | _ => .any

/-- The kind of the values of a type. -/
def CType.kind (type : CType) : Kind := if type.isInteger then .number else .any

/-- Integers are represented as integers, and nothing else is. -/
theorem CType.kind_target {type : CType} {target : TargetType} (h : type.target = .ok target) :
    target.kind = type.kind := by
  cases type with
  | primitive kind =>
    cases h
    cases kind <;> rfl
  | pointer type =>
    unfold CType.target at h
    split at h
    · rename_i heq
      cases heq
    · cases h
      rfl
    · obtain ⟨t, _, rfl⟩ := Except.map_eq_ok.1 h
      rfl
    · cases h
  | array | struct | named => cases h

/-- What is represented as an integer is loaded as one, and of other things nothing is known. -/
theorem CType.loads_target {type : CType} {target : TargetType} (h : type.target = .ok target) :
    target.isInteger = true ∨ type.kind = .any := by
  have hkind := kind_target h
  cases hc : type.isInteger with
  | true =>
    refine .inl ?_
    rw [kind, hc, if_pos rfl] at hkind
    unfold TargetType.kind at hkind
    split at hkind
    · assumption
    · split at hkind <;> cases hkind
  | false => exact .inr (by simp [kind, hc])

theorem TargetType.allows_zeroOf (type : TargetType) : type.kind.Allows first (.zeroOf type) := by
  unfold TargetType.kind
  split
  · rename_i h
    rw [Value.zeroOf, if_pos h]
    exact Kind.allows_int _ 0
  · split
    · unfold Kind.Allows
      exact Value.within_zeroOf _
    · trivial
    · unfold Kind.Allows
      exact Value.within_zeroOf _
    · trivial

/-- The kind of what a method keeps in a slot. -/
def Method.kindAt? (m : Method) : Slot → Option Kind
  | .parameter index => m.parameters[index.toNat]?.map (·.type.kind)
  | .local index => m.locals[index.toNat]?.map (·.type.kind)

theorem Method.Extends.kindAt? {m M : Method} (h : m.Extends M) {slot : Slot} {k : Kind}
    (hk : m.kindAt? slot = some k) : M.kindAt? slot = some k := by
  cases slot with
  | parameter index =>
    rw [Method.kindAt?, h.parameters]
    exact hk
  | «local» index =>
    obtain ⟨v, hv, rfl⟩ := Option.map_eq_some_iff.1 hk
    rw [Method.kindAt?, h.variableAt hv]
    rfl

/-- What an instruction inside a call does to the kinds of the values on the stack, the topmost first,
if another instruction comes next. -/
inductive Instruction.Turns (m : Method) (next : Option Instruction) :
    Instruction → List Kind → List Kind → Prop where
  | loadArgument {slot : UInt16} {k l : Kind} {d : List Kind} :
    m.kindAt? (.parameter slot) = some k → k.Within l → Turns m next (.loadArgument slot) d (l :: d)
  /-- A local variable is pushed. -/
  | loadLocal {slot : UInt16} {k l : Kind} {d : List Kind} :
    m.kindAt? (.local slot) = some k → k.Within l → Turns m next (.loadLocal slot) d (l :: d)
  /-- A value goes to an argument. -/
  | storeArgument {slot : UInt16} {k l : Kind} {d : List Kind} :
    m.kindAt? (.parameter slot) = some l → k.Within l → Turns m next (.storeArgument slot) (k :: d) d
  /-- A value goes to a local variable. -/
  | storeLocal {slot : UInt16} {k l : Kind} {d : List Kind} :
    m.kindAt? (.local slot) = some l → k.Within l → Turns m next (.storeLocal slot) (k :: d) d
  | constInt32 {value : Int32} {k : Kind} {d : List Kind} :
    Turns m next (.constInt32 value) d (k :: d)
  | constInt64 {value : Int64} {k : Kind} {d : List Kind} :
    Turns m next (.constInt64 value) d (k :: d)
  /-- The topmost value is pushed once more. -/
  | dup {k : Kind} {d : List Kind} : Turns m next .dup (k :: d) (k :: k :: d)
  /-- The topmost value is dropped. -/
  | pop {k : Kind} {d : List Kind} : Turns m next .pop (k :: d) d
  /-- Numbers are combined to a number. -/
  | sum {op : BinaryInstr} {k : Kind} {d : List Kind} :
    Turns m next (.binary op) (.number :: .number :: d) (k :: d)
  /-- Only numbers can be combined in other ways than by a sum or a difference. -/
  | combine {op : BinaryInstr} {k l l' : Kind} {d : List Kind} : op ≠ .add → op ≠ .sub →
    Turns m next (.binary op) (k :: l :: d) (l' :: d)
  /-- A pointer may be moved. -/
  | move {op : BinaryInstr} {k l : Kind} {d : List Kind} :
    Turns m next (.binary op) (k :: l :: d) (.any :: d)
  /-- The difference of two pointers, which is converted to a number of 64 bits. -/
  | difference {k l l' : Kind} {d : List Kind} : next = some .convInt64 →
    Turns m next (.binary .sub) (k :: l :: d) (l' :: d)
  /-- A number is made of a number. -/
  | neg {k l : Kind} {d : List Kind} : Turns m next .neg (k :: d) (l :: d)
  /-- A number is made of a number. -/
  | not {k l : Kind} {d : List Kind} : Turns m next .not (k :: d) (l :: d)
  /-- A number is cut down. -/
  | convInt32 {k l : Kind} {d : List Kind} : Turns m next .convInt32 (k :: d) (l :: d)
  | compare {op : CompareInstr} {k l l' : Kind} {d : List Kind} :
    Turns m next (.compare op) (k :: l :: d) (l' :: d)
  /-- A value stays as it is. -/
  | convInt64 {k l : Kind} {d : List Kind} : k.Within l → Turns m next .convInt64 (k :: d) (l :: d)
  /-- A value stays as it is. -/
  | convNative {k l : Kind} {d : List Kind} : k.Within l → Turns m next .convNative (k :: d) (l :: d)
  | convAddress {k : Kind} {d : List Kind} : k.Within .lent →
    Turns m next .convAddress (k :: d) (.lent :: d)
  /-- Native copies of strings are made. -/
  | argsToArgv {k : Kind} {d : List Kind} :
    Turns m next (.callHelper .argsToArgv) (k :: d) (.made :: d)
  /-- Native copies of strings are given back. -/
  | freeArgv {k : Kind} {d : List Kind} : Turns m next (.callHelper .freeArgv) (k :: d) d
  /-- Elements are copied from one array to another. -/
  | arrayCopy {k l l' : Kind} {d : List Kind} : l'.Within .made →
    Turns m next (.callHelper .arrayCopy) (k :: l :: l' :: d) d
  | newArray {element : TargetType} {k : Kind} {d : List Kind} :
    Turns m next (.newArray element) (k :: d) (.made :: d)
  /-- The length of an array is pushed. -/
  | arrayLength {k l : Kind} {d : List Kind} : Turns m next .arrayLength (k :: d) (l :: d)
  /-- A reference to an element is pushed. -/
  | elementAddress {element : TargetType} {k l : Kind} {d : List Kind} : l.Within .made →
    Turns m next (.elementAddress element) (k :: l :: d) (.lent :: d)
  | load {type : TargetType} {k l : Kind} {d : List Kind} : type.isInteger = true ∨ l = .any →
    Turns m next (.load type) (k :: d) (l :: d)
  | store {type : TargetType} {k l : Kind} {d : List Kind} : Turns m next (.store type) (k :: l :: d) d

/-- Only a difference depends on what comes next. -/
theorem Instruction.Turns.before {m : Method} {i : Instruction} {d e : List Kind}
    (h : i.Turns m none d e) (next : Option Instruction) : i.Turns m next d e := by
  cases h with
  | difference h => cases h
  | sum => exact .sum
  | combine h h' => exact .combine h h'
  | move => exact .move
  | _ => constructor <;> assumption

namespace Instruction.Turns

variable {m : Method} {next : Option Instruction} {i : Instruction} {d e : List Kind}

/-- What becomes of the topmost value. -/
theorem onTop {f : Value → Except Fault Value} (h : i.Turns m next d e) (hf : i.onTop? = some f) :
    ∃ k l rest, d = k :: rest ∧ e = l :: rest ∧
      ∀ v w, k.Allows first v → f v = .ok w → l.Allows first w := by
  have hint : ∀ {l : Kind} {g : Int64 → Int64} {r : Except Fault Int64} {w : Value},
      (fun n => Value.int (g n)) <$> r = .ok w → l.Allows first w := by
    intro l g r w hw
    obtain ⟨n, -, rfl⟩ := Except.map_eq_ok.1 hw
    exact l.allows_int _
  have hnative : ∀ {k l : Kind} {v w : Value}, k.Within l → k.Allows first v →
      Activation.toNative v = .ok w → l.Allows first w := by
    intro k l v w hkl hv hw
    cases v <;> cases hw <;> exact hkl.allows hv
  cases h <;> cases hf
  case neg | not | convInt32 => exact ⟨_, _, _, rfl, rfl, fun v w _ hw => hint hw⟩
  case convInt64 hkl | convNative hkl => exact ⟨_, _, _, rfl, rfl, fun v w hv hw => hnative hkl hv hw⟩
  case convAddress hk =>
    refine ⟨_, _, _, rfl, rfl, fun v w hv hw => ?_⟩
    exact @Instruction.within_onTop (.lent first) .convAddress _ v w rfl (hk.allows hv) hw

/-- A sum or difference of numbers is a number, and so is the result of any other operation. -/
theorem allows_apply {op : BinaryInstr} {u v w : Value} (h : op.apply u v = .ok w) :
    (∃ n, w = .int n) ∨ op = .add ∨ op = .sub ∧ ∃ p n, u = .pointer p ∧ v = .int n := by
  unfold BinaryInstr.apply at h
  split at h
  · obtain ⟨n, -, rfl⟩ := Except.map_eq_ok.1 h
    exact .inl ⟨n, rfl⟩
  · exact .inr (.inl rfl)
  · exact .inr (.inl rfl)
  · exact .inr (.inr ⟨rfl, _, _, rfl, rfl⟩)
  · split at h
    · cases h
      exact .inl ⟨_, rfl⟩
    · cases h
  · cases h

/-- What becomes of the two topmost values, unless a number is subtracted from a pointer for a
difference of pointers. -/
theorem onTop2 {f : Value → Value → Except Fault Value} (h : i.Turns m next d e)
    (hf : i.onTop2? = some f) :
    ∃ k k' l rest, d = k :: k' :: rest ∧ e = l :: rest ∧
      ∀ u v w, k.Allows first v → k'.Allows first u → f u v = .ok w → l.Allows first w ∨
        (i = .binary .sub ∧ next = some .convInt64 ∧ ∃ p n, u = .pointer p ∧ v = .int n) := by
  cases h <;> cases hf
  case sum =>
    refine ⟨_, _, _, _, rfl, rfl, ?_⟩
    rintro u v w ⟨n, rfl⟩ ⟨n', rfl⟩ hw
    obtain ⟨_, -, rfl⟩ := Except.map_eq_ok.1 hw
    exact .inl (Kind.allows_int _ _)
  case combine hadd hsub =>
    refine ⟨_, _, _, _, rfl, rfl, fun u v w _ _ hw => .inl ?_⟩
    rcases allows_apply hw with ⟨n, rfl⟩ | hop | ⟨hop, -⟩
    · exact Kind.allows_int _ _
    · exact absurd hop hadd
    · exact absurd hop hsub
  case move => exact ⟨_, _, _, _, rfl, rfl, fun _ _ _ _ _ _ => .inl trivial⟩
  case difference hnext =>
    refine ⟨_, _, _, _, rfl, rfl, fun u v w _ _ hw => ?_⟩
    rcases allows_apply hw with ⟨n, rfl⟩ | hop | ⟨-, hmixed⟩
    · exact .inl (Kind.allows_int _ _)
    · cases hop
    · exact .inr ⟨rfl, hnext, hmixed⟩
  case compare =>
    refine ⟨_, _, _, _, rfl, rfl, fun u v w _ _ hw => .inl ?_⟩
    obtain ⟨_, -, rfl⟩ := Except.map_eq_ok.1 hw
    exact Kind.allows_int _ _

end Instruction.Turns

theorem Value.asPointer_eq_ok {v : Value} {p : Pointer} (h : v.asPointer = .ok p) :
    v = .pointer p := by
  unfold Value.asPointer at h
  split at h
  · cases h
    rfl
  · split at h <;> cases h

namespace Activation

variable {a b : Activation} {s t : Store} {i : Instruction} {m : Method} {d e : List Kind}

/-- The value in a slot. -/
def valueAt? (a : Activation) : Slot → Option Value
  | .parameter index => a.arguments[index.toNat]?
  | .local index => a.locals[index.toNat]?

/-- What is kept in a slot is of its kind. -/
def KeepsKinds (first : Nat) (a : Activation) : Prop :=
  ∀ slot k v, a.method.kindAt? slot = some k → a.valueAt? slot = some v → k.Allows first v

/-- An instruction that is to make an integer makes something else. -/
inductive Mixes (a : Activation) (s : Store) : Prop where
  /-- An integer is loaded from an array that holds something else there. -/
  | load {type : TargetType} {p : Pointer} {id : Nat} {v : Value} {rest : List Value} :
    a.instruction? = some (.load type) → type.isInteger = true → a.stack = .pointer p :: rest →
    p.place = .array id → s.heap.load p type = .ok v → (∀ n, v ≠ .int n) → Mixes a s
  /-- A number is subtracted from a pointer, for a difference of two pointers. -/
  | difference {n : Int64} {p : Pointer} {rest : List Value} :
    a.instruction? = some (.binary .sub) →
    a.method.body.instructions[a.pc + 1]? = some .convInt64 →
    a.stack = .int n :: .pointer p :: rest → Mixes a s

theorem getElem?_of_setIfInBounds {xs : Array Value} {i j : Nat} {v w : Value}
    (h : (xs.setIfInBounds i v)[j]? = some w) : (i = j ∧ v = w) ∨ xs[j]? = some w := by
  by_cases hij : i = j
  · subst hij
    obtain ⟨_, rfl⟩ := Array.getElem?_eq_some_iff.1 h
    rw [Array.getElem_setIfInBounds_self]
    exact .inl ⟨rfl, rfl⟩
  · rw [Array.getElem?_setIfInBounds_ne hij] at h
    exact .inr h

/-- A value that is put into an argument is of its kind, and the other values are still. -/
theorem KeepsKinds.storeArgument {slot : UInt16} {k : Kind} {v : Value} (h : a.KeepsKinds first)
    (hk : a.method.kindAt? (.parameter slot) = some k) (hv : k.Allows first v) (stack : List Value)
    (pc : Nat) :
    KeepsKinds first { a with
      stack := stack, arguments := a.arguments.setIfInBounds slot.toNat v, pc := pc } := by
  intro other l w hl hw
  cases other with
  | «local» index => exact h (.local index) l w hl hw
  | parameter index =>
    rcases getElem?_of_setIfInBounds hw with ⟨hindex, rfl⟩ | hw
    · obtain rfl : slot = index := UInt16.toNat_inj.1 hindex
      obtain rfl : k = l := Option.some.inj (hk.symm.trans hl)
      exact hv
    · exact h (.parameter index) l w hl hw

/-- A value that is put into a local variable is of its kind, and the other values are still. -/
theorem KeepsKinds.storeLocal {slot : UInt16} {k : Kind} {v : Value} (h : a.KeepsKinds first)
    (hk : a.method.kindAt? (.local slot) = some k) (hv : k.Allows first v) (stack : List Value)
    (pc : Nat) :
    KeepsKinds first { a with
      stack := stack, locals := a.locals.setIfInBounds slot.toNat v, pc := pc } := by
  intro other l w hl hw
  cases other with
  | parameter index => exact h (.parameter index) l w hl hw
  | «local» index =>
    rcases getElem?_of_setIfInBounds hw with ⟨hindex, rfl⟩ | hw
    · obtain rfl : slot = index := UInt16.toNat_inj.1 hindex
      obtain rfl : k = l := Option.some.inj (hk.symm.trans hl)
      exact hv
    · exact h (.local index) l w hl hw

/-- What is loaded for an integer is one, unless the array that it is loaded from holds something else
there. -/
theorem allows_load {type : TargetType} {p : Pointer} {v : Value} {rest : List Value}
    (hi : a.instruction? = some (.load type)) (hs : a.stack = .pointer p :: rest)
    (hl : s.heap.load p type = .ok v) (hmixes : ¬ a.Mixes s) (htype : type.isInteger = true) :
    ∃ n, v = .int n := by
  rcases Heap.load_eq_ok hl with ⟨_, _, hv⟩ | ⟨id, _, _, _, hplace, _, _⟩
  · exact hv
  · apply Classical.byContradiction
    intro hv
    exact hmixes (.load hi htype hs hplace hl fun n hn => hv ⟨n, hn⟩)

/-- Instructions of the starter spare what it lends. -/
theorem spares_of_turns {next : Option Instruction} (hturns : i.Turns m next d e)
    (hstack : List.Forall₂ (Kind.Allows first) d a.stack) (hstore : ∀ type, i ≠ .store type) :
    a.Spares first i := by
  refine ⟨?_, fun type _ _ _ heq => absurd heq (hstore type)⟩
  rintro source destination length rest rfl heq
  cases hturns with
  | arrayCopy hk =>
    rw [heq] at hstack
    have hrest := (List.forall₂_cons.1 (List.forall₂_cons.1 hstack).2).2
    exact hk.allows (List.forall₂_cons.1 hrest).1

/-- What an instruction inside a call leaves on the stack, and in the slots, is of the kinds that it
should be of, unless it mixes them. -/
theorem Executes.turns {next : Option Instruction} (h : a.Executes s i b t)
    (hturns : i.Turns m next d e) (hm : m.Extends a.method) (hi : a.instruction? = some i)
    (hnext : ∀ j, next = some j → a.method.body.instructions[a.pc + 1]? = some j)
    (hmixes : ¬ a.Mixes s) (hlends : s.Lends first) (ha : a.KeepsKinds first)
    (hstack : List.Forall₂ (Kind.Allows first) d a.stack) :
    List.Forall₂ (Kind.Allows first) e b.stack ∧ b.KeepsKinds first := by
  cases h with
  | onTop hf hs hw =>
    obtain ⟨k, l, rest, rfl, rfl, hallows⟩ := hturns.onTop hf
    rw [hs] at hstack
    obtain ⟨hv, hrest⟩ := List.forall₂_cons.1 hstack
    exact ⟨.cons (hallows _ _ hv hw) hrest, ha⟩
  | onTop2 hf hs hw =>
    obtain ⟨k, k', l, rest, rfl, rfl, hallows⟩ := hturns.onTop2 hf
    rw [hs] at hstack
    obtain ⟨hv, hstack⟩ := List.forall₂_cons.1 hstack
    obtain ⟨hu, hrest⟩ := List.forall₂_cons.1 hstack
    rcases hallows _ _ _ hv hu hw with hw | ⟨rfl, hconv, p, n, rfl, rfl⟩
    · exact ⟨.cons hw hrest, ha⟩
    · exact absurd (.difference hi (hnext _ hconv) hs) hmixes
  | nop | loadNull | branch | branchTaken | branchPassed => cases hturns
  | loadArgument hv =>
    cases hturns with
    | loadArgument hk hkl => exact ⟨.cons (hkl.allows (ha _ _ _ (hm.kindAt? hk) hv)) hstack, ha⟩
  | loadLocal hv =>
    cases hturns with
    | loadLocal hk hkl => exact ⟨.cons (hkl.allows (ha _ _ _ (hm.kindAt? hk) hv)) hstack, ha⟩
  | storeArgument hs hp =>
    cases hturns with
    | storeArgument hk hkl =>
      rw [hs] at hstack
      obtain ⟨hv, hrest⟩ := List.forall₂_cons.1 hstack
      exact ⟨hrest, ha.storeArgument (hm.kindAt? hk) ((hkl.allows hv).narrow _) _ _⟩
  | storeLocal hs hp =>
    cases hturns with
    | storeLocal hk hkl =>
      rw [hs] at hstack
      obtain ⟨hv, hrest⟩ := List.forall₂_cons.1 hstack
      exact ⟨hrest, ha.storeLocal (hm.kindAt? hk) ((hkl.allows hv).narrow _) _ _⟩
  | constInt32 =>
    cases hturns with
    | constInt32 => exact ⟨.cons (Kind.allows_int _ _) hstack, ha⟩
  | constInt64 =>
    cases hturns with
    | constInt64 => exact ⟨.cons (Kind.allows_int _ _) hstack, ha⟩
  | dup hs =>
    cases hturns with
    | dup =>
      rw [hs] at hstack
      exact ⟨.cons (List.forall₂_cons.1 hstack).1 hstack, ha⟩
  | pop hs =>
    cases hturns with
    | pop =>
      rw [hs] at hstack
      exact ⟨(List.forall₂_cons.1 hstack).2, ha⟩
  | @callHelper helper result t hlength hcall =>
    have hresult := Access.length_callHelper hcall
    have hdropped := List.forall₂_drop helper.arity hstack
    cases hturns with
    | argsToArgv =>
      cases result with
      | none => cases hresult
      | some w =>
        have hmade := ((Access.lends_callHelper (by simp) s hlends).1 _ _ hcall).2
        exact ⟨.cons (hmade w rfl) hdropped, ha⟩
    | freeArgv | arrayCopy =>
      cases result with
      | none => exact ⟨hdropped, ha⟩
      | some w => cases hresult
  | newArray hs hnew =>
    cases hturns with
    | newArray =>
      rw [hs] at hstack
      have hmade := ((lends_makeArray _ _ s hlends).1 _ _ hnew).2
      exact ⟨.cons hmade (List.forall₂_cons.1 hstack).2, ha⟩
  | arrayLength hs =>
    cases hturns with
    | arrayLength =>
      rw [hs] at hstack
      exact ⟨.cons (Kind.allows_int _ _) (List.forall₂_cons.1 hstack).2, ha⟩
  | elementAddress hs _ hid hw =>
    cases hturns with
    | elementAddress hk =>
      rw [hs] at hstack
      have hrest := List.forall₂_cons.1 (List.forall₂_cons.1 hstack).2
      obtain ⟨size, -, rfl⟩ := elementReference_eq_ok hw
      have hobject : Value.Within (.made first) _ := hk.allows hrest.1
      exact ⟨.cons (hobject.asObject hid) hrest.2, ha⟩
  | load hs hp hl =>
    cases hturns with
    | load hkind =>
      rw [hs] at hstack
      obtain rfl := Value.asPointer_eq_ok hp
      refine ⟨.cons ?_ (List.forall₂_cons.1 hstack).2, ha⟩
      rcases hkind with htype | rfl
      · obtain ⟨n, rfl⟩ := allows_load hi hs hl hmixes htype
        exact Kind.allows_int _ n
      · trivial
  | store hs =>
    cases hturns with
    | store =>
      rw [hs] at hstack
      exact ⟨(List.forall₂_cons.1 (List.forall₂_cons.1 hstack).2).2, ha⟩

end Activation

end ManagedC
