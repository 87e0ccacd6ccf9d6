import ManagedC.Target.Instruction
import ManagedC.Text

/-!
# Label tables

A label table says which instruction each bound label stands for. It is a list of pairs in the order
of the labels, so that equal tables are equal lists.
-/

namespace ManagedC

/-- Where there is no label, none is out of order. -/
theorem Label.pairwise_nil : ([] : List (Label × Nat)).Pairwise (fun a b => a.1 < b.1) := .nil

/-- The offsets of the labels that are bound. -/
structure LabelTable where
  /-- Labels with their offsets. -/
  entries : List (Label × Nat) := []
  /-- Every label comes before the larger ones, and none comes twice. -/
  sorted : entries.Pairwise (fun a b => a.1 < b.1) := by exact Label.pairwise_nil
  deriving DecidableEq

namespace LabelTable

instance : Inhabited LabelTable := ⟨{}⟩

/-- The table in which no label is bound. -/
def empty : LabelTable := {}

/-- The entries with one label bound, anew if it was bound before. -/
def insertEntry (label : Label) (offset : Nat) : List (Label × Nat) → List (Label × Nat)
  | [] => [(label, offset)]
  | (l, o) :: rest =>
    if label < l then (label, offset) :: (l, o) :: rest
    else if label = l then (label, offset) :: rest
    else (l, o) :: insertEntry label offset rest

/-- Binding a label brings in no other label. -/
theorem eq_or_mem_of_mem_insertEntry {label : Label} {offset : Nat} {e : Label × Nat} :
    ∀ {entries : List (Label × Nat)}, e ∈ insertEntry label offset entries →
      e = (label, offset) ∨ e ∈ entries
  | [], h => by simpa [insertEntry] using h
  | (l, o) :: rest, h => by
    unfold insertEntry at h
    split at h
    · simpa using h
    · split at h
      · rcases List.mem_cons.1 h with h | h
        · exact .inl h
        · exact .inr (List.mem_cons_of_mem _ h)
      · rcases List.mem_cons.1 h with h | h
        · exact .inr (h ▸ List.mem_cons_self)
        · exact (eq_or_mem_of_mem_insertEntry h).imp_right (List.mem_cons_of_mem _)

/-- Binding a label keeps the order. -/
theorem pairwise_insertEntry (label : Label) (offset : Nat) :
    ∀ {entries : List (Label × Nat)}, entries.Pairwise (fun a b => a.1 < b.1) →
      (insertEntry label offset entries).Pairwise (fun a b => a.1 < b.1)
  | [], _ => by simp [insertEntry]
  | (l, o) :: rest, h => by
    have hl := (List.pairwise_cons.1 h).1
    have hr := (List.pairwise_cons.1 h).2
    unfold insertEntry
    split
    · rename_i hlt
      refine List.pairwise_cons.2 ⟨fun e he => ?_, h⟩
      rcases List.mem_cons.1 he with rfl | he
      · exact hlt
      · exact Nat.lt_trans hlt (hl e he)
    · split
      · rename_i _ heq
        subst heq
        exact List.pairwise_cons.2 ⟨hl, hr⟩
      · rename_i hge hne
        refine List.pairwise_cons.2 ⟨fun e he => ?_, pairwise_insertEntry label offset hr⟩
        rcases eq_or_mem_of_mem_insertEntry he with rfl | he
        · exact Nat.lt_of_le_of_ne (Nat.le_of_not_lt hge) (Ne.symm hne)
        · exact hl e he

/-- The table with one label bound, anew if it was bound before. -/
def insert (t : LabelTable) (label : Label) (offset : Nat) : LabelTable :=
  ⟨insertEntry label offset t.entries, pairwise_insertEntry label offset t.sorted⟩

/-- The offset of a label, if it is bound. -/
def offset? (t : LabelTable) (label : Label) : Option Nat := t.entries.lookup label

/-- Whether a label is bound. -/
def isBound (t : LabelTable) (label : Label) : Bool := (t.offset? label).isSome

/-- The labels bound to an offset, in order. -/
def labelsAt (t : LabelTable) (offset : Nat) : List Label :=
  (t.entries.filter fun e => e.2 == offset).map (·.1)

/-- The document of a table: an object with the labels as keys. -/
def toJson (t : LabelTable) : Json :=
  .record (t.entries.map fun e => (toString e.1, .ofNat e.2))

/-- The label that a key spells: digits without a needless zero. -/
def labelOfKey? (key : String) : Option Label :=
  match key.toList with
  | [] => none
  | c :: cs =>
    if (c :: cs).all Text.isDigit && (c ≠ '0' || cs.isEmpty) then
      let label := Text.natOfDigits (c :: cs)
      if label < 2 ^ 32 then some label else none
    else none

/-- The table that a document describes. A label that comes twice has its last offset. -/
def ofJson? : Nat → Json → Option LabelTable
  | _ + 1, .obj members =>
    members.foldlM (fun t m => do
      let label ← labelOfKey? (← m.1)
      return t.insert label (← m.2.index?)) empty
  | _, _ => none

end LabelTable

end ManagedC
