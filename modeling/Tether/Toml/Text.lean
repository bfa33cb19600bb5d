import Tether.Text.Quoted

/-!
# Texts in settings files

The four forms of text in a settings file: between double quotes with escapes, between single quotes
without, and each of them over several lines between triple quotes. A form is read in two steps:
where it ends, and what its characters stand for.
-/

namespace Tether.Toml

variable (c : Char)

def isBlank : Bool := c == ' ' || c == '\t'

def isBreak : Bool := c == '\n' || c == '\r'

def isGap : Bool := isBlank c || isBreak c

/-! ## Escapes -/

def shortEscape? : Char → Option Char
  | 'b' => some (Char.ofNat 8)
  | 't' => some '\t'
  | 'n' => some '\n'
  | 'f' => some (Char.ofNat 12)
  | 'r' => some '\r'
  | 'e' => some (Char.ofNat 27)
  | '"' => some '"'
  | '\\' => some '\\'
  | _ => none

def codeEscape? (digits : List Char) : Option Char := (Text.hexNumber? digits).bind Text.charOf?

def unescape? : List Char → Option (List Char)
  | [] => some []
  | '\\' :: 'x' :: a :: b :: rest => do
    let c ← codeEscape? [a, b]
    return c :: (← unescape? rest)
  | '\\' :: 'u' :: a :: b :: c :: d :: rest => do
    let c ← codeEscape? [a, b, c, d]
    return c :: (← unescape? rest)
  | '\\' :: 'U' :: a :: b :: c :: d :: e :: f :: g :: h :: rest => do
    let c ← codeEscape? [a, b, c, d, e, f, g, h]
    return c :: (← unescape? rest)
  | '\\' :: c :: rest => do
    let c ← shortEscape? c
    return c :: (← unescape? rest)
  | c :: rest => if c = '\\' then none else (unescape? rest).map (c :: ·)

/-- Several lines with those joined that end in a backslash; the gap after it goes away. -/
def joinLines (cs : List Char) : List Char :=
  match cs with
  | [] => []
  | '\\' :: '\\' :: rest => '\\' :: '\\' :: joinLines rest
  | '\\' :: rest =>
    if (rest.takeWhile isGap).contains '\n' then joinLines (rest.dropWhile isGap)
    else '\\' :: joinLines rest
  | c :: rest => c :: joinLines rest
termination_by cs.length
decreasing_by
  all_goals simp only [List.length_cons]
  · omega
  · have := (List.dropWhile_suffix isGap (l := rest)).length_le
    omega
  · omega
  · omega

def dropFirstBreak : List Char → List Char
  | '\n' :: rest => rest
  | '\r' :: '\n' :: rest => rest
  | cs => cs

/-! ## Where texts end -/

/-- The characters up to the double quote that ends a text of one line, and what follows it. -/
def untilQuote : List Char → Option (List Char × List Char)
  | '\\' :: c :: rest => (untilQuote rest).map fun (cs, after) => ('\\' :: c :: cs, after)
  | c :: rest =>
    if c = '"' then some ([], rest)
    else if isBreak c then none
    else (untilQuote rest).map fun (cs, after) => (c :: cs, after)
  | [] => none

variable (cs : List Char)

/-- The characters up to the single quote that ends a text of one line, and what follows it. -/
def untilApostrophe : Option (List Char × List Char) :=
  let stops (c : Char) : Bool := c == Text.apostrophe || isBreak c
  match cs.dropWhile (!stops ·) with
  | c :: rest => if isBreak c then none else some (cs.takeWhile (!stops ·), rest)
  | [] => none

/-- Whether five quotes end the characters, the latest first, that were read; where quotes can be
escaped, a backslash before them excuses one. -/
def tooManyQuotes (quote : Char) (escapes : Bool) (read : List Char) : Bool :=
  read.take 5 == List.replicate 5 quote && !(escapes && read[5]? == some '\\')

/-- The characters up to the three quotes that end a text of several lines, and what follows them.
Of a row of quotes the last three end the text. The characters before, the latest first, are given.
-/
def untilTriple (quote : Char) (escapes : Bool) : List Char → List Char → Option (List Char × List Char)
  | _, [] => none
  | read, c :: rest =>
    if escapes && c == '\\' then
      match rest with
      | d :: rest => untilTriple quote escapes (d :: c :: read) rest
      | [] => none
    else if c == quote && rest.take 2 == [quote, quote] then
      if rest[2]? == some quote then
        if tooManyQuotes quote escapes (quote :: quote :: quote :: read) then none
        else untilTriple quote escapes (c :: read) rest
      else some (read.reverse, rest.drop 2)
    else untilTriple quote escapes (c :: read) rest

/-! ## Texts -/

def quotedText? : Option (String × List Char) := do
  let (raw, rest) ← untilQuote cs
  return (String.ofList (← unescape? raw), rest)

def literalText? : Option (String × List Char) :=
  (untilApostrophe cs).map fun (raw, rest) => (String.ofList raw, rest)

def quotedLines? : Option (String × List Char) := do
  let (raw, rest) ← untilTriple '"' true [] cs
  return (String.ofList (← unescape? (joinLines (dropFirstBreak raw))), rest)

def literalLines? : Option (String × List Char) :=
  (untilTriple Text.apostrophe false [] cs).map fun (raw, rest) =>
    (String.ofList (dropFirstBreak raw), rest)

end Tether.Toml
