import Mathlib.Data.List.Basic

/-!
# `Lib.Json` — JSON text as Go's `encoding/json` writes and reads it

The writer covers strings, which is where the escapes are: quotes, backslashes, control characters, the three
characters that HTML cares about and the two line separators are escaped, everything else is copied. The
reader is a full JSON reader on character lists; it consumes one value and returns the rest of the text, and a
value may be followed by anything, as in a stream. It runs on fuel (`parseFuel`): no two units of it are spent
without consuming a character.

`parseString_quote` is the round trip: what the writer made of a string is read back as that string, and
reading stops right behind it.

The last section has what a client needs to read an object back that it has written field by field: a string is a value
(`parseValue_quote`), a member is its name and a value (`parseMembers_more`, `parseMembers_last`), and an object is its
members (`parseValue_object`). What the reader makes of other text is part of the definitions, for a client whose
program reads files that it has not written.
-/

namespace DistributedLabs
namespace Lib

/-- A JSON value. A number is kept as its text. -/
inductive Json where
  | null
  | bool (b : Bool)
  | num (literal : List Char)
  | str (s : String)
  | arr (items : List Json)
  | obj (fields : List (String × Json))

/-! ## Writing strings -/

/-- A hexadecimal digit, in lower case as Go writes it. -/
def hexDigit (n : Nat) : Char := if n < 10 then Char.ofNat (48 + n) else Char.ofNat (87 + n)

/-- A code below `65536` as `\uXXXX`. -/
def unicodeEscape (n : Nat) : List Char :=
  ['\\', 'u', hexDigit (n / 4096 % 16), hexDigit (n / 256 % 16), hexDigit (n / 16 % 16), hexDigit (n % 16)]

/-- The escape of one character: `none` if it is copied. -/
def shortEscape (c : Char) : Option Char :=
  if c = '"' then some '"'
  else if c = '\\' then some '\\'
  else if c = '\x08' then some 'b'
  else if c = '\x0c' then some 'f'
  else if c = '\n' then some 'n'
  else if c = '\r' then some 'r'
  else if c = '\t' then some 't'
  else none

/-- Characters written as `\uXXXX`: other control characters, `<`, `>`, `&`, and the line separators. -/
def needsUnicode (c : Char) : Bool :=
  c.toNat < 32 || c = '<' || c = '>' || c = '&' || c.toNat = 0x2028 || c.toNat = 0x2029

/-- A character as it stands in a string literal. -/
def escapeChar (c : Char) : List Char :=
  match shortEscape c with
  | some e => ['\\', e]
  | none => if needsUnicode c then unicodeEscape c.toNat else [c]

/-- A string as a JSON string literal. -/
def quote (s : String) : List Char := '"' :: (s.toList.flatMap escapeChar ++ ['"'])

/-! ## Reading strings -/

/-- The value of a hexadecimal digit, in either case. -/
def hexValue (c : Char) : Option Nat :=
  if '0' ≤ c ∧ c ≤ '9' then some (c.toNat - 48)
  else if 'a' ≤ c ∧ c ≤ 'f' then some (c.toNat - 87)
  else if 'A' ≤ c ∧ c ≤ 'F' then some (c.toNat - 55)
  else none

/-- The value of four digits. -/
def hex4 (a b c d : Char) : Option Nat :=
  (hexValue a).bind fun a => (hexValue b).bind fun b => (hexValue c).bind fun c => (hexValue d).map fun d =>
    4096 * a + 256 * b + 16 * c + d

/-- The character that is meant by a backslash and another character. -/
def unescape (e : Char) : Option Char :=
  if e = '"' then some '"'
  else if e = '\\' then some '\\'
  else if e = '/' then some '/'
  else if e = 'b' then some '\x08'
  else if e = 'f' then some '\x0c'
  else if e = 'n' then some '\n'
  else if e = 'r' then some '\r'
  else if e = 't' then some '\t'
  else none

/-- A string literal in pieces: plain characters, and codes from `\uXXXX`, which may be surrogates. -/
inductive Piece where
  | chr (c : Char)
  | code (n : Nat)

/-- Read up to the closing quote. -/
def parsePieces : List Char → Option (List Piece × List Char)
  | [] => none
  | c :: rest =>
      if c = '"' then some ([], rest)
      else if c = '\\' then
        match rest with
        | [] => none
        | e :: rest =>
            if e = 'u' then
              match rest with
              | a :: b :: c :: d :: rest =>
                  (hex4 a b c d).bind fun n => (parsePieces rest).map fun p => (.code n :: p.1, p.2)
              | _ => none
            else (unescape e).bind fun c => (parsePieces rest).map fun p => (.chr c :: p.1, p.2)
      else if c.toNat < 32 then none
      else (parsePieces rest).map fun p => (.chr c :: p.1, p.2)

/-- Two codes that make up one character. -/
def decodePair (n m : Nat) : Option Char :=
  if 0xd800 ≤ n ∧ n < 0xdc00 ∧ 0xdc00 ≤ m ∧ m < 0xe000 then
    some (Char.ofNat ((n - 0xd800) * 1024 + (m - 0xdc00) + 0x10000))
  else none

/-- The codes that make up a character only in pairs. -/
def isSurrogate (n : Nat) : Bool := 0xd800 ≤ n ∧ n < 0xe000

/-- Put the pieces together; a surrogate without its partner becomes the replacement character. The first
    argument is a surrogate that still waits for its partner. -/
def joinPieces : Option Nat → List Piece → List Char
  | none, [] => []
  | some _, [] => ['\ufffd']
  | none, .chr c :: rest => c :: joinPieces none rest
  | some _, .chr c :: rest => '\ufffd' :: c :: joinPieces none rest
  | none, .code n :: rest =>
      if isSurrogate n then joinPieces (some n) rest else Char.ofNat n :: joinPieces none rest
  | some n, .code m :: rest =>
      match decodePair n m with
      | some c => c :: joinPieces none rest
      | none =>
          '\ufffd' :: (if isSurrogate m then joinPieces (some m) rest else Char.ofNat m :: joinPieces none rest)

/-- A string literal, after its opening quote. -/
def parseString (cs : List Char) : Option (String × List Char) :=
  (parsePieces cs).map fun p => (String.ofList (joinPieces none p.1), p.2)

/-! ## The round trip of strings -/

theorem hexValue_hexDigit : ∀ d < 16, hexValue (hexDigit d) = some d := by decide

theorem hex4_digits {n : Nat} (h : n < 65536) :
    hex4 (hexDigit (n / 4096 % 16)) (hexDigit (n / 256 % 16)) (hexDigit (n / 16 % 16)) (hexDigit (n % 16))
      = some n := by
  unfold hex4
  rw [hexValue_hexDigit _ (by omega), hexValue_hexDigit _ (by omega), hexValue_hexDigit _ (by omega),
    hexValue_hexDigit _ (by omega)]
  show some (4096 * (n / 4096 % 16) + 256 * (n / 256 % 16) + 16 * (n / 16 % 16) + n % 16) = some n
  rw [Option.some.injEq]
  omega

/-- One line of a table that is written as a chain of tests. -/
theorem of_ite_some {α : Type} {p : Prop} [Decidable p] {a b : α} {rest : Option α}
    (h : (if p then some a else rest) = some b) : (p ∧ a = b) ∨ rest = some b := by
  by_cases hp : p
  · rw [if_pos hp] at h
    exact Or.inl ⟨hp, Option.some.inj h⟩
  · rw [if_neg hp] at h
    exact Or.inr h

/-- A short escape is read back, and it is not the beginning of a code. -/
theorem unescape_shortEscape {c e : Char} (h : shortEscape c = some e) : unescape e = some c ∧ e ≠ 'u' := by
  unfold shortEscape at h
  iterate 7
    rcases of_ite_some h with ⟨rfl, rfl⟩ | h
    · exact ⟨rfl, by decide⟩
  cases h

theorem not_surrogate (c : Char) : isSurrogate c.toNat = false := by
  have hvalid := c.valid
  unfold isSurrogate
  rcases hvalid with hlow | ⟨hhigh, _⟩
  · have hlt : c.toNat < 0xd800 := hlow
    simp; omega
  · have hgt : 0xdfff < c.toNat := hhigh
    simp; omega

/-- How the reader sees a written character. -/
def pieceOf (c : Char) : Piece :=
  if shortEscape c = none ∧ needsUnicode c = true then .code c.toNat else .chr c

theorem needsUnicode_lt {c : Char} (h : needsUnicode c = true) : c.toNat < 65536 := by
  unfold needsUnicode at h
  simp only [Bool.or_eq_true, decide_eq_true_eq] at h
  rcases h with ((((h | rfl) | rfl) | rfl) | h) | h
  · omega
  · decide
  · decide
  · decide
  · omega
  · omega

theorem parsePieces_unicode {n : Nat} (h : n < 65536) (rest : List Char) :
    parsePieces (unicodeEscape n ++ rest) = (parsePieces rest).map fun p => (.code n :: p.1, p.2) := by
  have hhex := hex4_digits h
  show parsePieces ('\\' :: 'u' :: _) = _
  rw [parsePieces.eq_def]
  simp [hhex]

/-- A written character in front is one piece. -/
theorem parsePieces_escapeChar (c : Char) (rest : List Char) :
    parsePieces (escapeChar c ++ rest) = (parsePieces rest).map fun p => (pieceOf c :: p.1, p.2) := by
  unfold escapeChar pieceOf
  cases hshort : shortEscape c with
  | some e =>
      obtain ⟨hun, hne⟩ := unescape_shortEscape hshort
      show parsePieces ('\\' :: e :: rest) = _
      rw [parsePieces.eq_def]
      simp [hne, hun]
  | none =>
      by_cases hcode : needsUnicode c = true
      · simp only [hcode, if_true, and_self]
        exact parsePieces_unicode (needsUnicode_lt hcode) rest
      · -- a character that is copied is no quote, no backslash and no control character
        have hquote : c ≠ '"' := by
          rintro rfl
          simp [shortEscape] at hshort
        have hback : c ≠ '\\' := by
          rintro rfl
          simp [shortEscape] at hshort
        have hctl : ¬ c.toNat < 32 := by
          intro hlt
          simp [needsUnicode, hlt] at hcode
        rw [if_neg hcode, List.singleton_append, parsePieces.eq_def]
        simp [hcode, hquote, hback, hctl]

theorem parsePieces_escaped (cs rest : List Char) :
    parsePieces (cs.flatMap escapeChar ++ '"' :: rest) = some (cs.map pieceOf, rest) := by
  induction cs with
  | nil =>
      show parsePieces ('"' :: rest) = _
      rw [parsePieces.eq_def]
      rfl
  | cons c cs ih =>
      rw [List.flatMap_cons, List.append_assoc, parsePieces_escapeChar, ih]
      rfl

theorem joinPieces_pieceOf (cs : List Char) : joinPieces none (cs.map pieceOf) = cs := by
  induction cs with
  | nil => rfl
  | cons c cs ih =>
      rw [List.map_cons]
      by_cases hcode : shortEscape c = none ∧ needsUnicode c = true
      · simp [pieceOf, hcode, joinPieces, not_surrogate, ih]
      · simp [pieceOf, hcode, joinPieces, ih]

/-- What the writer made of a string is read back, whatever follows. -/
theorem parseString_quote (s : String) (rest : List Char) :
    parseString (s.toList.flatMap escapeChar ++ '"' :: rest) = some (s, rest) := by
  unfold parseString
  rw [parsePieces_escaped]
  show some (String.ofList (joinPieces none (s.toList.map pieceOf)), rest) = some (s, rest)
  rw [joinPieces_pieceOf, String.ofList_toList]

/-! ## Reading values -/

/-- What may stand between values. -/
def isSpace (c : Char) : Bool := c = ' ' || c = '\t' || c = '\n' || c = '\r'

/-- The text without leading space. -/
def skipSpace (cs : List Char) : List Char := cs.dropWhile isSpace

/-- At least one digit. -/
def parseDigits (cs : List Char) : Option (List Char × List Char) :=
  match cs.takeWhile Char.isDigit with
  | [] => none
  | ds => some (ds, cs.dropWhile Char.isDigit)

/-- The digits before the point: no leading zero. -/
def parseWhole : List Char → Option (List Char × List Char)
  | '0' :: rest => some (['0'], rest)
  | cs => parseDigits cs

/-- The digits behind the point, if there is one. -/
def parseFraction : List Char → Option (List Char × List Char)
  | '.' :: rest => (parseDigits rest).map fun p => ('.' :: p.1, p.2)
  | cs => some ([], cs)

/-- The exponent, if there is one. -/
def parseExponent : List Char → Option (List Char × List Char)
  | e :: rest =>
      if e = 'e' ∨ e = 'E' then
        match rest with
        | s :: digits =>
            if s = '+' ∨ s = '-' then (parseDigits digits).map fun p => (e :: s :: p.1, p.2)
            else (parseDigits rest).map fun p => (e :: p.1, p.2)
        | [] => none
      else some ([], e :: rest)
  | [] => some ([], [])

/-- A number without its sign. -/
def parseUnsigned (cs : List Char) : Option (List Char × List Char) :=
  (parseWhole cs).bind fun whole => (parseFraction whole.2).bind fun frac =>
    (parseExponent frac.2).map fun exp => (whole.1 ++ frac.1 ++ exp.1, exp.2)

def parseNumber : List Char → Option (List Char × List Char)
  | '-' :: rest => (parseUnsigned rest).map fun p => ('-' :: p.1, p.2)
  | cs => parseUnsigned cs

/-- Go's limit on nested arrays and objects. -/
def maxNestingDepth : Nat := 10000

/-- Fuel enough for a text of this length. -/
def parseFuel (cs : List Char) : Nat := 2 * cs.length + 2

mutual

/-- One value, after leading space. -/
def parseValue : Nat → Nat → List Char → Option (Json × List Char)
  | 0, _, _ => none
  | fuel + 1, depth, cs =>
      match skipSpace cs with
      | '{' :: rest =>
          match depth with
          | 0 => none
          | depth + 1 =>
              match skipSpace rest with
              | '}' :: rest => some (.obj [], rest)
              | rest => (parseMembers fuel depth rest).map fun p => (.obj p.1, p.2)
      | '[' :: rest =>
          match depth with
          | 0 => none
          | depth + 1 =>
              match skipSpace rest with
              | ']' :: rest => some (.arr [], rest)
              | rest => (parseItems fuel depth rest).map fun p => (.arr p.1, p.2)
      | '"' :: rest => (parseString rest).map fun p => (.str p.1, p.2)
      | 'n' :: 'u' :: 'l' :: 'l' :: rest => some (.null, rest)
      | 't' :: 'r' :: 'u' :: 'e' :: rest => some (.bool true, rest)
      | 'f' :: 'a' :: 'l' :: 's' :: 'e' :: rest => some (.bool false, rest)
      | rest => (parseNumber rest).map fun p => (.num p.1, p.2)

/-- The members of an object, up to its closing brace. -/
def parseMembers : Nat → Nat → List Char → Option (List (String × Json) × List Char)
  | 0, _, _ => none
  | fuel + 1, depth, cs =>
      match skipSpace cs with
      | '"' :: rest =>
          (parseString rest).bind fun name =>
            match skipSpace name.2 with
            | ':' :: rest =>
                (parseValue fuel depth rest).bind fun value =>
                  match skipSpace value.2 with
                  | ',' :: rest =>
                      (parseMembers fuel depth rest).map fun p => ((name.1, value.1) :: p.1, p.2)
                  | '}' :: rest => some ([(name.1, value.1)], rest)
                  | _ => none
            | _ => none
      | _ => none

/-- The items of an array, up to its closing bracket. -/
def parseItems : Nat → Nat → List Char → Option (List Json × List Char)
  | 0, _, _ => none
  | fuel + 1, depth, cs =>
      (parseValue fuel depth cs).bind fun value =>
        match skipSpace value.2 with
        | ',' :: rest => (parseItems fuel depth rest).map fun p => (value.1 :: p.1, p.2)
        | ']' :: rest => some ([value.1], rest)
        | _ => none

end

/-! ## Reading what has been written -/

theorem skipSpace_append {ws : List Char} (h : ∀ c ∈ ws, isSpace c = true) (cs : List Char) :
    skipSpace (ws ++ cs) = skipSpace cs := by
  unfold skipSpace
  induction ws with
  | nil => rfl
  | cons c ws ih =>
      have hc := h c (List.mem_cons_self ..)
      rw [List.cons_append, List.dropWhile_cons_of_pos hc]
      exact ih (fun x hx => h x (List.mem_cons_of_mem c hx))

theorem skipSpace_cons {c : Char} (h : isSpace c = false) (cs : List Char) : skipSpace (c :: cs) = c :: cs := by
  unfold skipSpace
  rw [List.dropWhile_cons_of_neg (by simp [h])]

theorem quote_append (s : String) (rest : List Char) :
    quote s ++ rest = '"' :: (s.toList.flatMap escapeChar ++ '"' :: rest) := by
  simp [quote]

/-- A written string is a value. -/
theorem parseValue_quote (fuel depth : Nat) (s : String) (rest : List Char) :
    parseValue (fuel + 1) depth (quote s ++ rest) = some (.str s, rest) := by
  rw [quote_append, parseValue.eq_def]
  simp [skipSpace_cons (show isSpace '"' = false by decide), parseString_quote]

/-- The last member of an object. -/
theorem parseMembers_last (fuel depth : Nat) (name s : String) (rest : List Char) :
    parseMembers (fuel + 2) depth (quote name ++ ':' :: (quote s ++ '}' :: rest))
      = some ([(name, .str s)], rest) := by
  rw [quote_append, parseMembers.eq_def]
  simp [skipSpace_cons (show isSpace '"' = false by decide), parseString_quote,
    skipSpace_cons (show isSpace ':' = false by decide), parseValue_quote,
    skipSpace_cons (show isSpace '}' = false by decide)]

/-- A member with more to come. -/
theorem parseMembers_more (fuel depth : Nat) (name s : String) (rest : List Char) :
    parseMembers (fuel + 2) depth (quote name ++ ':' :: (quote s ++ ',' :: rest))
      = (parseMembers (fuel + 1) depth rest).map fun p => ((name, .str s) :: p.1, p.2) := by
  rw [quote_append, parseMembers.eq_def]
  simp [skipSpace_cons (show isSpace '"' = false by decide), parseString_quote,
    skipSpace_cons (show isSpace ':' = false by decide), parseValue_quote,
    skipSpace_cons (show isSpace ',' = false by decide)]

/-- An object that is not empty. -/
theorem parseValue_object {ws : List Char} (hws : ∀ c ∈ ws, isSpace c = true) {fuel depth : Nat}
    {text rest : List Char} {members : List (String × Json)}
    (h : parseMembers fuel depth ('"' :: text) = some (members, rest)) :
    parseValue (fuel + 1) (depth + 1) (ws ++ '{' :: '"' :: text) = some (.obj members, rest) := by
  rw [parseValue.eq_def]
  simp [skipSpace_append hws, skipSpace_cons (show isSpace '{' = false by decide),
    skipSpace_cons (show isSpace '"' = false by decide), h]

/-- Nothing but space is left of a stream. -/
theorem parseValue_space {ws : List Char} (h : ∀ c ∈ ws, isSpace c = true) (fuel depth : Nat) :
    parseValue fuel depth ws = none := by
  cases fuel with
  | zero => rw [parseValue.eq_def]
  | succ fuel =>
      have hnil : skipSpace ws = [] := by
        have hskip := skipSpace_append h []
        rwa [List.append_nil] at hskip
      rw [parseValue.eq_def]
      simp [hnil, parseNumber, parseUnsigned, parseWhole, parseDigits]

end Lib
end DistributedLabs
