import ManagedC.CommandLine
import ManagedC.Syntax.Construct
import ManagedC.Proofs.Documents.Syntax
import ManagedC.Proofs.Documents.Modules

/-!
# What is written is read back

A text may open `Json.maxNesting` arrays and objects at once. A syntax tree whose text keeps to this
is what a reader of the text gets, and so is a program that was written as a document. Main statement:
`Json.reads_written`.
-/

namespace ManagedC

/-- A syntax tree is read back from its text. -/
theorem TranslationUnit.parse?_print {u : TranslationUnit} (h : u.toJson.depth ≤ Json.maxNesting) :
    parse? u.print = some u :=
  u.describes.parse h

/-- A program is read back from its text as a document. -/
theorem Module.ofJson?_render {m : Module} (h : m.FitsWidths)
    (hdepth : m.toJson.depth ≤ Json.maxNesting) :
    (Json.parse? (CommandLine.render m .json)).bind (ofJson? Json.maxNesting) = some m :=
  (describes h).parse hdepth

/-- Syntax trees and programs are read back from the texts that are written of them, if these do not
nest too deep. -/
theorem Json.reads_written :
    (∀ u : TranslationUnit, u.toJson.depth ≤ Json.maxNesting →
      TranslationUnit.parse? u.print = some u) ∧
    (∀ m : Module, m.FitsWidths → m.toJson.depth ≤ Json.maxNesting →
      (Json.parse? (CommandLine.render m .json)).bind (Module.ofJson? Json.maxNesting) = some m) :=
  ⟨fun _ h => TranslationUnit.parse?_print h, fun _ h hdepth => Module.ofJson?_render h hdepth⟩

/-- A unit with a loop and a return without a value. -/
def TranslationUnit.waiting : TranslationUnit :=
  ⟨[Construct.intFunction "wait\n" none
    [.whileLoop .unknown (.intLiteral .unknown (-1)) (.ret .unknown none)]]⟩

/-- A program with a jump, a label and a protected region. -/
def Module.waiting : Module where
  name := "wait \"on\""
  methods := #[{ Method.declare "wait" .void .publicStatic with
    body :=
      { instructions := #[.branch 7]
        labels := LabelTable.empty.insert 7 0
        handlers := [⟨7, 7, 7, 7⟩] } }]
  entryPoint := some 0

/-- Both are read back. -/
theorem Json.reads_waiting :
    TranslationUnit.parse? TranslationUnit.waiting.print = some TranslationUnit.waiting ∧
    (Json.parse? (CommandLine.render Module.waiting .json)).bind
      (Module.ofJson? Json.maxNesting) = some Module.waiting := by
  have hfits : Module.waiting.FitsWidths := by
    refine ⟨fun method hmethod => ?_, by decide⟩
    obtain rfl := Array.mem_singleton.1 hmethod
    refine ⟨by decide, by decide, fun h hh => ?_⟩
    obtain rfl := List.mem_singleton.1 hh
    exact ⟨by decide, by decide, by decide, by decide⟩
  exact ⟨reads_written.1 _ (by decide), reads_written.2 _ hfits (by decide)⟩

end ManagedC
