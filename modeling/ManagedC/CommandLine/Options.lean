/-!
# Options on a command line

A command has options, each with a long name, perhaps a letter, and perhaps a value; everything else
on its command line is a plain argument. After `--` nothing is an option any more. A value may stand
in the same word as its option or in the next one, which then must not look like an option itself.
No option may be given twice.
-/

namespace ManagedC.CommandLine

/-- An option of a command. -/
structure OptionRule where
  /-- The name after two dashes. -/
  long : String
  /-- The letter after one dash. -/
  short : Option Char
  /-- What a value must be like; none if the option has no value. -/
  accepts : Option (String → Bool)

/-- The words of a command line, sorted. -/
structure Words where
  /-- The options given, by their long names, with their values. -/
  options : List (String × String) := []
  /-- The arguments. -/
  arguments : List String := []
  /-- The words after two dashes. -/
  trailing : Option (List String) := none
  deriving Inhabited

/-- What reading a command line leads to. -/
inductive Reading where
  /-- The command is given. -/
  | command (words : Words)
  /-- Help is asked for, in the long form or in the short one. -/
  | help (long : Bool)
  /-- The version is asked for. -/
  | version
  /-- There is a mistake. -/
  | mistake
  deriving Inhabited

/-- What a command accepts. -/
structure CommandRule where
  /-- The options. -/
  options : List OptionRule
  /-- Whether the version can be asked for. -/
  hasVersion : Bool
  /-- Whether one more argument is accepted after others. -/
  acceptsArgument : List String → String → Bool

namespace OptionRule

/-- An option without a value. -/
def flag (long : String) (short : Option Char) : OptionRule := ⟨long, short, none⟩

end OptionRule

namespace Words

/-- The value of an option, if it is given. -/
def value? (w : Words) (long : String) : Option String := w.options.lookup long

/-- Whether an option is given. -/
def has (w : Words) (long : String) : Bool := (w.value? long).isSome

/-- One more option; none if it is given already or its value is not accepted. -/
def addOption? (w : Words) (rule : OptionRule) (value : String) : Option Words :=
  if w.has rule.long || !(rule.accepts.map (· value)).getD true then none
  else some { w with options := w.options ++ [(rule.long, value)] }

/-- One more argument. -/
def addArgument (w : Words) (argument : String) : Words :=
  { w with arguments := w.arguments ++ [argument] }

end Words

/-- A word, as far as its dashes tell. -/
inductive WordShape where
  /-- Two dashes alone. -/
  | separator
  /-- An option by its long name, perhaps with a value. -/
  | long (name : String) (value : Option String)
  /-- Options by their letters. -/
  | letters (cs : List Char)
  /-- Anything else. -/
  | plain

/-- What a word is. A single dash is no option. -/
def shape (word : String) : WordShape :=
  match word.toList with
  | ['-', '-'] => .separator
  | '-' :: '-' :: rest =>
    let name := String.ofList (rest.takeWhile (· ≠ '='))
    match rest.dropWhile (· ≠ '=') with
    | [] => .long name none
    | _ :: value => .long name (some (String.ofList value))
  | '-' :: c :: rest => .letters (c :: rest)
  | _ => .plain

/-- Whether a word can be the value of the option before it. -/
def canBeValue (word : String) : Bool :=
  match shape word with
  | .plain => true
  | _ => false

/-- What reading letters leads to. -/
inductive LetterReading where
  /-- All are read. -/
  | words (words : Words)
  /-- The last one wants the next word for its value. -/
  | wantsValue (rule : OptionRule) (words : Words)
  /-- Reading ends here. -/
  | stop (reading : Reading)

/-- Reads options given by letters. What follows the letter of an option with a value is its value,
after an equality sign or without one. -/
def readLetters (rule : CommandRule) : List Char → Words → LetterReading
  | [], w => .words w
  | c :: cs, w =>
    if c = 'h' then .stop (.help false)
    else if c = 'V' && rule.hasVersion then .stop .version
    else
      match rule.options.find? (·.short = some c), cs with
      | none, _ => .stop .mistake
      | some o, cs =>
        if o.accepts.isNone then
          match w.addOption? o "" with
          | none => .stop .mistake
          | some w => readLetters rule cs w
        else
          match cs with
          | [] => .wantsValue o w
          | c :: cs =>
            match w.addOption? o (String.ofList (if c = '=' then cs else c :: cs)) with
            | none => .stop .mistake
            | some w => .words w

/-- Reads the words of a command. -/
def read (rule : CommandRule) : List String → Words → Reading
  | [], w => .command w
  | word :: rest, w =>
    match shape word with
    | .separator => .command { w with trailing := some rest }
    | .plain =>
      if rule.acceptsArgument w.arguments word then read rule rest (w.addArgument word)
      else .mistake
    | .long "help" none => .help true
    | .long name value =>
      if name == "version" && value.isNone && rule.hasVersion then .version
      else
        match rule.options.find? (·.long == name), value with
        | none, _ => .mistake
        | some o, some value =>
          if o.accepts.isNone then .mistake
          else
            match w.addOption? o value with
            | none => .mistake
            | some w => read rule rest w
        | some o, none =>
          if o.accepts.isNone then
            match w.addOption? o "" with
            | none => .mistake
            | some w => read rule rest w
          else readValue rule o rest w
    | .letters cs =>
      match readLetters rule cs w with
      | .stop reading => reading
      | .words w => read rule rest w
      | .wantsValue o w => readValue rule o rest w
where
  /-- Reads a word that is the value of an option, and the words after it. -/
  readValue (rule : CommandRule) (o : OptionRule) : List String → Words → Reading
    | [], _ => .mistake
    | value :: rest, w =>
      if !canBeValue value then .mistake
      else
        match w.addOption? o value with
        | none => .mistake
        | some w => read rule rest w

end ManagedC.CommandLine
