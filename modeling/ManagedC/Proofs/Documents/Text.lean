import Mathlib.Tactic.Common
import Mathlib.Data.List.Basic
import ManagedC.Json.Printer
import ManagedC.Json.Reader

/-!
# Documents are read back as they were written

A document whose numbers are integers is read back from its pretty layout, however deep it nests and
whatever its strings are. `Spells` says which tokens characters spell, so that what is written piece
by piece can be read piece by piece; `tokens` are the tokens of a document, from which the grammar
makes the document again. Main statement: `parse?_pretty`.
-/

namespace ManagedC.Json

open Text (isDigit natOfDigits)

/-! ## Characters and tokens -/

/-- The characters spell the tokens: between blanks, one token comes after the other. -/
inductive Spells : List Char → List Token → Prop where
  /-- At the end there is no token. -/
  | done : Spells [] []
  /-- A blank does not count. -/
  | blank {c : Char} {cs : List Char} {ts : List Token} :
    isBlank c = true → Spells cs ts → Spells (c :: cs) ts
  /-- A token takes at least one character. -/
  | token {c : Char} {cs rest : List Char} {t : Token} {ts : List Token} :
    isBlank c = false → token? (c :: cs) = some (t, rest) → rest.length ≤ cs.length →
    Spells rest ts → Spells (c :: cs) (t :: ts)

variable {cs : List Char} {ts : List Token}

namespace Spells

theorem length_le (h : Spells cs ts) : ts.length ≤ cs.length := by
  induction h with
  | done => exact Nat.le_refl _
  | blank _ _ ih => exact Nat.le_succ_of_le ih
  | token _ _ hle _ ih => exact Nat.succ_le_succ (Nat.le_trans ih hle)

/-- Fuel for each token is enough to read them all. -/
theorem tokensWithin_eq (h : Spells cs ts) {fuel : Nat} (hfuel : ts.length ≤ fuel) :
    tokensWithin fuel cs = some ts := by
  induction h generalizing fuel with
  | done => cases fuel <;> rfl
  | @blank c cs ts hc _ ih =>
    have hskip : (c :: cs).dropWhile isBlank = cs.dropWhile isBlank := by
      rw [List.dropWhile_cons, if_pos hc]
    rw [← ih hfuel]
    cases fuel <;> simp only [tokensWithin, hskip]
  | @token c cs rest t ts hc ht _ _ ih =>
    obtain ⟨fuel, rfl⟩ : ∃ n, fuel = n + 1 := ⟨fuel - 1, by simp at hfuel; omega⟩
    have hstay : (c :: cs).dropWhile isBlank = c :: cs := by
      rw [List.dropWhile_cons, hc]
      rfl
    simp only [tokensWithin, hstay]
    simp [ht, ih (Nat.le_of_succ_le_succ hfuel)]

theorem tokens?_eq (h : Spells cs ts) : tokens? cs = some ts := h.tokensWithin_eq h.length_le

theorem comma (h : Spells cs ts) : Spells (',' :: cs) (.comma :: ts) :=
  .token rfl rfl (Nat.le_refl _) h

theorem colon (h : Spells cs ts) : Spells (':' :: cs) (.colon :: ts) :=
  .token rfl rfl (Nat.le_refl _) h

theorem openArray (h : Spells cs ts) : Spells ('[' :: cs) (.openArray :: ts) :=
  .token rfl rfl (Nat.le_refl _) h

theorem closeArray (h : Spells cs ts) : Spells (']' :: cs) (.closeArray :: ts) :=
  .token rfl rfl (Nat.le_refl _) h

theorem openObject (h : Spells cs ts) : Spells ('\x7b' :: cs) (.openObject :: ts) :=
  .token rfl rfl (Nat.le_refl _) h

theorem closeObject (h : Spells cs ts) : Spells ('\x7d' :: cs) (.closeObject :: ts) :=
  .token rfl rfl (Nat.le_refl _) h

/-- Line breaks and indentation do not count. -/
theorem newline (h : Spells cs ts) (level : Nat) : Spells (newline level ++ cs) ts := by
  refine .blank rfl ?_
  induction 2 * level with
  | zero => exact h
  | succ n ih => exact .blank rfl ih

end Spells

/-! ## String literals -/

theorem hexNumber?_hexChar :
    ∀ n < 0x20, hexNumber? ['0', '0', hexChar (n / 16), hexChar (n % 16)] = some n := by
  decide

/-- A character is read back from how it is written inside a string literal. -/
theorem literalUnits_escaped (c : Char) (cs : List Char) :
    literalUnits (escaped c ++ cs) =
      (literalUnits cs).map fun (units, rest) => (c.toNat :: units, rest) := by
  have hplain : ∀ e d, shortEscape? e = some d → e ≠ 'u' → literalUnits ('\\' :: e :: cs) =
      (literalUnits cs).map fun (units, rest) => (d.toNat :: units, rest) := by
    intro e d he hu
    rw [literalUnits.eq_4 e cs fun _ _ _ _ _ h => absurd h hu, he]
    cases literalUnits cs <;> rfl
  unfold escaped
  by_cases hquote : c = '"'
  · rw [if_pos hquote, hquote]
    exact hplain '"' '"' rfl (by decide)
  by_cases hslash : c = '\\'
  · rw [if_neg hquote, if_pos hslash, hslash]
    exact hplain '\\' '\\' rfl (by decide)
  rw [if_neg hquote, if_neg hslash]
  split_ifs with hb hf hn hr ht hlow
  · exact hb ▸ hplain 'b' '\x08' rfl (by decide)
  · exact hf ▸ hplain 'f' '\x0c' rfl (by decide)
  · exact hn ▸ hplain 'n' '\n' rfl (by decide)
  · exact hr ▸ hplain 'r' '\r' rfl (by decide)
  · exact ht ▸ hplain 't' '\t' rfl (by decide)
  · simp only [List.cons_append, List.nil_append, literalUnits.eq_3, hexNumber?_hexChar _ hlow]
    cases literalUnits cs <;> rfl
  · rw [List.singleton_append, literalUnits.eq_5 c cs hquote
      (fun _ _ _ _ _ h => absurd h hslash) (fun _ _ h => absurd h hslash), if_neg hlow]
    cases literalUnits cs <;> rfl

theorem literalUnits_flatMap_escaped (text rest : List Char) :
    literalUnits (text.flatMap escaped ++ '"' :: rest) = some (text.map Char.toNat, rest) := by
  induction text with
  | nil => exact literalUnits.eq_2 rest
  | cons c text ih =>
    rw [List.flatMap_cons, List.append_assoc, literalUnits_escaped, ih]
    rfl

/-- No character is half a surrogate pair. -/
theorem not_isSurrogate (c : Char) :
    isHighSurrogate c.toNat = false ∧ isLowSurrogate c.toNat = false := by
  have hvalid : c.toNat.isValidChar := c.valid
  unfold Nat.isValidChar at hvalid
  generalize c.toNat = n at hvalid
  simp only [isHighSurrogate, isLowSurrogate, Bool.and_eq_false_iff, decide_eq_false_iff_not]
  omega

theorem charsOfUnits_map_toNat : ∀ text : List Char, charsOfUnits (text.map Char.toNat) = some text
  | [] => rfl
  | [c] => by
    obtain ⟨hhigh, hlow⟩ := not_isSurrogate c
    simp [charsOfUnits, hhigh, hlow, Char.ofNat_toNat]
  | c :: d :: text => by
    obtain ⟨hhigh, hlow⟩ := not_isSurrogate c
    have ih := charsOfUnits_map_toNat (d :: text)
    rw [List.map_cons] at ih
    rw [List.map_cons, List.map_cons, charsOfUnits, hhigh, hlow, ih]
    simp [Char.ofNat_toNat]

theorem textOfUnits?_toNat (text : String) :
    textOfUnits? (text.toList.map Char.toNat) = some text := by
  simp [textOfUnits?, charsOfUnits_map_toNat]

/-- A string literal is read back as it is written, also the one without a text. -/
theorem Spells.literal (h : Spells cs ts) (text : Option String) :
    Spells (literalChars text ++ cs) (.literal text :: ts) := by
  cases text with
  | none => exact .token rfl rfl (by simp; omega) h
  | some text =>
    have hunits := literalUnits_flatMap_escaped text.toList cs
    have hchars : literalChars (some text) ++ cs =
        '"' :: (text.toList.flatMap escaped ++ '"' :: cs) := by
      unfold literalChars
      simp only [List.cons_append, List.append_assoc, List.nil_append]
    rw [hchars]
    refine .token rfl ?_ (by simp; omega) h
    simp only [token?, hunits, Option.map_some, textOfUnits?_toNat]

/-! ## Numbers -/

/-- No number goes on with these characters. -/
def EndsNumber (cs : List Char) : Prop :=
  ∀ c ∈ cs.head?, isDigit c = false ∧ c ≠ '.' ∧ c ≠ 'e' ∧ c ≠ 'E'

theorem endsNumber_nil : EndsNumber [] := nofun

theorem endsNumber_cons {c : Char} (h : isDigit c = false ∧ c ≠ '.' ∧ c ≠ 'e' ∧ c ≠ 'E') :
    EndsNumber (c :: cs) := by
  rintro _ ⟨⟩
  exact h

theorem endsNumber_newline (level : Nat) : EndsNumber (newline level ++ cs) :=
  endsNumber_cons (by decide)

theorem isDigit_of_mem_toDigits {n : Nat} {c : Char} (h : c ∈ Nat.toDigits 10 n) :
    isDigit c = true := by
  have hdigit := Nat.isDigit_of_mem_toDigits (by decide) (by decide) h
  simpa [Char.isDigit, isDigit, Char.le_def] using hdigit

/-- Only zero is written with a leading zero. -/
theorem eq_zero_of_head?_toDigits {n : Nat} (h : (Nat.toDigits 10 n).head? = some '0') : n = 0 := by
  induction n using Nat.strongRecOn with
  | _ n ih =>
    have hdigit : ∀ n < 10, [n.digitChar].head? = some '0' → n = 0 := by decide
    rw [@Nat.toDigits_eq_if 10 n (by decide)] at h
    split at h
    · exact hdigit n ‹_› h
    · rw [List.head?_append_of_ne_nil _ Nat.toDigits_ne_nil] at h
      have hzero := ih (n / 10) (by omega) h
      omega

theorem fraction?_eq (hends : EndsNumber cs) : fraction? cs = some ([], cs) := by
  cases cs with
  | nil => rfl
  | cons c cs =>
    obtain ⟨-, hpoint, -⟩ := hends c rfl
    unfold fraction?
    split
    · simp_all
    · rfl

theorem exponent?_eq (hends : EndsNumber cs) : exponent? cs = some ([], cs) := by
  cases cs with
  | nil => rfl
  | cons c cs =>
    obtain ⟨-, -, hlower, hupper⟩ := hends c rfl
    simp [exponent?, hlower, hupper]

/-- The digits of a number are read up to where it ends. -/
theorem wholeDigits?_toDigits (n : Nat) (hends : EndsNumber cs) :
    wholeDigits? (Nat.toDigits 10 n ++ cs) = some (Nat.toDigits 10 n, cs) := by
  by_cases hn : n = 0
  · subst hn
    rfl
  have hdigits := fun c => @isDigit_of_mem_toDigits n c
  have hleading := mt (@eq_zero_of_head?_toDigits n) hn
  cases h : Nat.toDigits 10 n with
  | nil => exact absurd h Nat.toDigits_ne_nil
  | cons d ds =>
    rw [h] at hdigits hleading
    have hstop : cs.takeWhile isDigit = [] ∧ cs.dropWhile isDigit = cs := by
      cases cs with
      | nil => exact ⟨rfl, rfl⟩
      | cons c cs => simp [(hends c rfl).1]
    have hall : ∀ c ∈ ds, isDigit c = true := fun c hc => hdigits c (List.mem_cons_of_mem _ hc)
    rw [List.cons_append, wholeDigits?.eq_3 _ _ fun hd => hleading (hd ▸ rfl),
      if_pos (hdigits d List.mem_cons_self), List.takeWhile_append_of_pos hall,
      List.dropWhile_append_of_pos hall, hstop.1, hstop.2, List.append_nil]

theorem number?_toDigits (negative : Bool) (n : Nat) (hends : EndsNumber cs) :
    number? negative (Nat.toDigits 10 n ++ cs) =
      some (numberOfParts negative (Nat.toDigits 10 n) [] [], cs) := by
  simp [number?, wholeDigits?_toDigits n hends, fraction?_eq hends, exponent?_eq hends]

theorem natOfDigits_toDigits (n : Nat) : natOfDigits (Nat.toDigits 10 n) = n :=
  Nat.ofDigitChars_toDigits (by decide) (by decide)

theorem numberOfParts_natural (n : Nat) :
    numberOfParts false (Nat.toDigits 10 n) [] [] = .int n := by
  simp [numberOfParts, natOfDigits_toDigits]

theorem numberOfParts_negative (n : Nat) :
    numberOfParts true (Nat.toDigits 10 (n + 1)) [] [] = .int (Int.negSucc n) := by
  have hzero : Nat.toDigits 10 (n + 1) ≠ ['0'] := fun h =>
    Nat.succ_ne_zero n (eq_zero_of_head?_toDigits (h ▸ rfl))
  simp [numberOfParts, natOfDigits_toDigits, hzero, Int.negSucc_eq]

/-- What starts with a digit is read as a number. -/
theorem token?_of_isDigit {c : Char} (h : isDigit c = true) :
    token? (c :: cs) = (number? false (c :: cs)).map fun (value, rest) => (.scalar value, rest) :=
      by
  apply token?.eq_13
  · nofun
  all_goals
    rintro rest ⟨⟩
    simp [isDigit] at h

theorem isBlank_of_isDigit {c : Char} (h : isDigit c = true) : isBlank c = false := by
  have hne : ∀ d, isDigit d = false → c ≠ d := by
    rintro d hd rfl
    rw [h] at hd
    cases hd
  simp [isBlank, hne ' ' rfl, hne '\t' rfl, hne '\n' rfl, hne '\r' rfl]

/-- An integer is read back where no number goes on. -/
theorem Spells.int (h : Spells cs ts) (hends : EndsNumber cs) (value : Int) :
    Spells ((toString value).toList ++ cs) (.scalar (.int value) :: ts) := by
  cases value with
  | ofNat n =>
    have hnumber := number?_toDigits false n hends
    have hdigit := fun c => @isDigit_of_mem_toDigits n c
    rw [numberOfParts_natural] at hnumber
    change Spells (n.repr.toList ++ cs) _
    rw [Nat.toList_repr]
    cases hdigits : Nat.toDigits 10 n with
    | nil => exact absurd hdigits Nat.toDigits_ne_nil
    | cons d ds =>
      rw [hdigits] at hnumber hdigit
      have hd := hdigit d List.mem_cons_self
      rw [List.cons_append] at hnumber ⊢
      refine .token (isBlank_of_isDigit hd) ?_ (by simp) h
      rw [token?_of_isDigit hd, hnumber]
      rfl
  | negSucc n =>
    have hnumber := number?_toDigits true (n + 1) hends
    have hchars : (toString (Int.negSucc n)).toList ++ cs =
        '-' :: (Nat.toDigits 10 (n + 1) ++ cs) := by
      change ("-" ++ (n + 1).repr).toList ++ cs = _
      simp
    rw [numberOfParts_negative] at hnumber
    rw [hchars]
    refine .token rfl ?_ (by simp) h
    simp only [token?, hnumber, Option.map_some]

/-! ## Layouts -/

mutual

/-- Whether all numbers of a document are integers. -/
def isIntegral : Json → Bool
  | .real _ => false
  | .arr es => areIntegral es
  | .obj ms => haveIntegral ms
  | _ => true

/-- Whether all numbers of elements are integers. -/
def areIntegral : List Json → Bool
  | [] => true
  | e :: es => e.isIntegral && areIntegral es

/-- Whether all numbers of the values of members are integers. -/
def haveIntegral : List (Option String × Json) → Bool
  | [] => true
  | (_, value) :: ms => value.isIntegral && haveIntegral ms

end

mutual

/-- The tokens of a document. -/
def tokens : Json → List Token
  | .arr es => .openArray :: elementTokens es ++ [.closeArray]
  | .obj ms => .openObject :: memberTokens ms ++ [.closeObject]
  | .str text => [.literal text]
  | j => [.scalar j]

/-- The tokens of elements. -/
def elementTokens : List Json → List Token
  | [] => []
  | [e] => tokens e
  | e :: es => tokens e ++ .comma :: elementTokens es

/-- The tokens of members. -/
def memberTokens : List (Option String × Json) → List Token
  | [] => []
  | [(key, value)] => .literal key :: .colon :: tokens value
  | (key, value) :: ms => .literal key :: .colon :: (tokens value ++ .comma :: memberTokens ms)

end

theorem endsNumber_comma : EndsNumber (',' :: cs) := endsNumber_cons (by decide)

/-- A document without parts is read back where no number goes on. -/
theorem Spells.scalar {j : Json} (hj : j.isIntegral = true) (harr : ∀ es, j ≠ .arr es)
    (hobj : ∀ ms, j ≠ .obj ms) (h : Spells cs ts) (hends : EndsNumber cs) :
    Spells (scalarChars j ++ cs) (tokens j ++ ts) := by
  cases j with
  | null => exact .token rfl rfl (by simp; omega) h
  | bool value => cases value <;> exact .token rfl rfl (by simp; omega) h
  | int value => exact h.int hends value
  | real => simp [isIntegral] at hj
  | str text => exact h.literal text
  | arr es => exact absurd rfl (harr es)
  | obj ms => exact absurd rfl (hobj ms)

mutual

/-- A document is read back from its pretty layout where no number goes on. -/
theorem Spells.pretty (level : Nat) : ∀ j : Json, j.isIntegral = true → ∀ {cs ts},
    Spells cs ts → EndsNumber cs → Spells (prettyChars level j ++ cs) (tokens j ++ ts)
  | .arr [], _, _, _, h, _ => h.closeArray.openArray
  | .arr (e :: es), hj, cs, ts, h, _ => by
    have hparts := Spells.prettyElements (level + 1) (e :: es) hj (h.closeArray.newline level)
      (endsNumber_newline level)
    simpa [prettyChars, tokens] using hparts.openArray
  | .obj [], _, _, _, h, _ => h.closeObject.openObject
  | .obj (m :: ms), hj, cs, ts, h, _ => by
    have hparts := Spells.prettyMembers (level + 1) (m :: ms) hj (h.closeObject.newline level)
      (endsNumber_newline level)
    simpa [prettyChars, tokens] using hparts.openObject
  | .null, hj, _, _, h, hends => h.scalar hj nofun nofun hends
  | .bool _, hj, _, _, h, hends => h.scalar hj nofun nofun hends
  | .int _, hj, _, _, h, hends => h.scalar hj nofun nofun hends
  | .str _, hj, _, _, h, hends => h.scalar hj nofun nofun hends

/-- Elements are read back from their pretty layout. -/
theorem Spells.prettyElements (level : Nat) : ∀ es : List Json, areIntegral es = true → ∀ {cs ts},
    Spells cs ts → EndsNumber cs → Spells (prettyElements level es ++ cs) (elementTokens es ++ ts)
  | [], _, _, _, h, _ => h
  | [e], hes, cs, ts, h, hends => by
    have he : e.isIntegral = true := by simpa [areIntegral] using hes
    simpa [Json.prettyElements, elementTokens]
      using (Spells.pretty level e he h hends).newline level
  | e :: e' :: es, hes, cs, ts, h, hends => by
    obtain ⟨he, hes⟩ : e.isIntegral = true ∧ areIntegral (e' :: es) = true :=
      Bool.and_eq_true_iff.1 hes
    have hrest := (Spells.prettyElements level (e' :: es) hes h hends).comma
    have hfirst := (Spells.pretty level e he hrest endsNumber_comma).newline level
    simpa [Json.prettyElements, elementTokens] using hfirst

/-- Members are read back from their pretty layout. -/
theorem Spells.prettyMembers (level : Nat) : ∀ ms : List (Option String × Json),
    haveIntegral ms = true → ∀ {cs ts}, Spells cs ts → EndsNumber cs →
      Spells (prettyMembers level ms ++ cs) (memberTokens ms ++ ts)
  | [], _, _, _, h, _ => h
  | [(key, value)], hms, cs, ts, h, hends => by
    have hvalue : value.isIntegral = true := by simpa [haveIntegral] using hms
    have hmember := (Spells.pretty level value hvalue h hends).blank (c := ' ') rfl
    simpa [Json.prettyMembers, memberTokens] using (hmember.colon.literal key).newline level
  | (key, value) :: m :: ms, hms, cs, ts, h, hends => by
    obtain ⟨hvalue, hms⟩ : value.isIntegral = true ∧ haveIntegral (m :: ms) = true :=
      Bool.and_eq_true_iff.1 hms
    have hrest := (Spells.prettyMembers level (m :: ms) hms h hends).comma
    have hmember := (Spells.pretty level value hvalue hrest endsNumber_comma).blank (c := ' ') rfl
    simpa [Json.prettyMembers, memberTokens] using (hmember.colon.literal key).newline level

end

/-! ## Grammar -/

/-- The first token of a document is not a closing one. -/
theorem exists_tokens_eq_cons (j : Json) :
    ∃ t ts, tokens j = t :: ts ∧ t ≠ .closeArray ∧ t ≠ .closeObject := by
  cases j with
  | arr es => exact ⟨.openArray, _, rfl, nofun, nofun⟩
  | obj ms => exact ⟨.openObject, _, rfl, nofun, nofun⟩
  | str text => exact ⟨.literal text, _, rfl, nofun, nofun⟩
  | _ => exact ⟨.scalar _, _, rfl, nofun, nofun⟩

/-- Elements begin with the first token of the first of them. -/
theorem exists_elementTokens_eq (e : Json) (es : List Json) :
    ∃ ts, elementTokens (e :: es) = tokens e ++ ts := by
  cases es with
  | nil => exact ⟨[], (List.append_nil _).symm⟩
  | cons e' es => exact ⟨_, rfl⟩

/-- An array with elements is read by reading the elements. -/
theorem valueWithin_openArray (fuel : Nat) (e : Json) (es : List Json) (rest : List Token) :
    valueWithin (fuel + 1) (.openArray :: (elementTokens (e :: es) ++ rest)) =
      (elementsWithin fuel (elementTokens (e :: es) ++ rest)).map fun (es, rest) =>
        (.arr es, rest) := by
  obtain ⟨ts', hes⟩ := exists_elementTokens_eq e es
  obtain ⟨t, ts, he, hne, -⟩ := exists_tokens_eq_cons e
  rw [hes, he, List.append_assoc, List.cons_append, valueWithin]
  · simp
    intro h
    exact absurd h hne

/-- An object with members is read by reading the members. -/
theorem valueWithin_openObject (fuel : Nat) (m : Option String × Json)
    (ms : List (Option String × Json)) (rest : List Token) :
    valueWithin (fuel + 1) (.openObject :: (memberTokens (m :: ms) ++ rest)) =
      (membersWithin fuel (memberTokens (m :: ms) ++ rest)).map fun (ms, rest) =>
        (.obj ms, rest) := by
  obtain ⟨key, value⟩ := m
  cases ms <;> rfl

mutual

/-- The grammar makes a document from its tokens. -/
theorem valueWithin_tokens : ∀ (j : Json) (fuel : Nat) (rest : List Token),
    (tokens j).length ≤ fuel → valueWithin fuel (tokens j ++ rest) = some (j, rest)
  | .arr [], fuel + 1, rest, _ => rfl
  | .obj [], fuel + 1, rest, _ => rfl
  | .arr (e :: es), fuel + 1, rest, hfuel => by
    have hlength : (elementTokens (e :: es)).length < fuel := by
      simp [tokens] at hfuel
      omega
    have helements := elementsWithin_elementTokens e es fuel rest hlength
    rw [tokens, List.append_assoc, List.cons_append, List.singleton_append,
      valueWithin_openArray, helements]
    rfl
  | .obj (m :: ms), fuel + 1, rest, hfuel => by
    have hlength : (memberTokens (m :: ms)).length < fuel := by
      simp [tokens] at hfuel
      omega
    have hmembers := membersWithin_memberTokens m ms fuel rest hlength
    rw [tokens, List.append_assoc, List.cons_append, List.singleton_append,
      valueWithin_openObject, hmembers]
    rfl
  | .null, fuel + 1, rest, _ => rfl
  | .bool _, fuel + 1, rest, _ => rfl
  | .int _, fuel + 1, rest, _ => rfl
  | .real _, fuel + 1, rest, _ => rfl
  | .str _, fuel + 1, rest, _ => rfl

/-- The grammar makes elements from their tokens up to the end of the array. -/
theorem elementsWithin_elementTokens : ∀ (e : Json) (es : List Json) (fuel : Nat)
    (rest : List Token), (elementTokens (e :: es)).length < fuel →
      elementsWithin fuel (elementTokens (e :: es) ++ .closeArray :: rest) = some (e :: es, rest)
  | e, [], fuel + 1, rest, hfuel => by
    have hfirst := valueWithin_tokens e fuel (.closeArray :: rest) (Nat.le_of_lt_succ hfuel)
    rw [elementTokens, elementsWithin, hfirst]
  | e, e' :: es, fuel + 1, rest, hfuel => by
    simp only [elementTokens, List.length_append, List.length_cons] at hfuel
    have hrest := elementsWithin_elementTokens e' es fuel rest (by omega)
    have hfirst := valueWithin_tokens e fuel
      (.comma :: (elementTokens (e' :: es) ++ .closeArray :: rest)) (by omega)
    rw [elementTokens, List.append_assoc, List.cons_append, elementsWithin, hfirst]
    · simp [hrest]
    · nofun

/-- The grammar makes members from their tokens up to the end of the object. -/
theorem membersWithin_memberTokens : ∀ (m : Option String × Json)
    (ms : List (Option String × Json)) (fuel : Nat) (rest : List Token),
      (memberTokens (m :: ms)).length < fuel →
      membersWithin fuel (memberTokens (m :: ms) ++ .closeObject :: rest) = some (m :: ms, rest)
  | (key, value), [], fuel + 1, rest, hfuel => by
    have hfirst := valueWithin_tokens value fuel (.closeObject :: rest)
      (by simp [memberTokens] at hfuel; omega)
    simp [memberTokens, membersWithin, hfirst]
  | (key, value), m :: ms, fuel + 1, rest, hfuel => by
    simp only [memberTokens, List.length_append, List.length_cons] at hfuel
    have hrest := membersWithin_memberTokens m ms fuel rest (by omega)
    have hfirst := valueWithin_tokens value fuel
      (.comma :: (memberTokens (m :: ms) ++ .closeObject :: rest)) (by omega)
    simp [memberTokens, membersWithin, hfirst, hrest]

end

theorem ofTokens?_tokens (j : Json) : ofTokens? (tokens j) = some j := by
  have hvalue := valueWithin_tokens j _ [] (Nat.le_refl _)
  rw [List.append_nil] at hvalue
  rw [ofTokens?, hvalue]

/-- A document whose numbers are integers is read back from its pretty layout. -/
theorem parse?_pretty {j : Json} (h : j.isIntegral = true) : parse? j.pretty = some j := by
  have hspells := Spells.pretty 0 j h .done endsNumber_nil
  rw [List.append_nil, List.append_nil] at hspells
  rw [parse?, Json.pretty, String.toList_ofList, hspells.tokens?_eq, Option.bind_some,
    ofTokens?_tokens]

end ManagedC.Json
