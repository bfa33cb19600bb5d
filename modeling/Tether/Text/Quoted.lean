import Tether.Text.Letter

/-!
# Quoted text

A text in double quotes, or a character in single quotes, in which the quote and the backslash are
escaped, printable characters stand for themselves, and every other character has an escape of its
own.
-/

namespace Tether.Text

/-! ## Printable characters

A character is printable if it is a letter, a mark, a number, a punctuation character or a symbol,
or the ASCII blank. -/

def printableRuns : List Nat := numbers
  "gFMBbbMCGEHBBBUBpHBbMCbYCDBcDIbBEGRWBhKBbWCcHCdXOcHCbXCPBbCCBBLFbGHcXBgFBICCCWBHBBDECJCCCEIBECBFCZCDBGEC
  CWBHBCBCBCCBBFECCDDBHEBBHRKDBJBDBWBHBCBFCKBDBDCBPECMHHBDBICCCWBHBCBFCJCCCDHDECBFCSKCBGDDBEDCBBBCDCDDDMEF
  DDBECBGBOVFNBDBXBQCJBDBEHCBDBCCECKHWBDBXBKBFCJBDBEHCFDBECKBDMNBDBbZBDBGEQCbABDBSDYBJBBCHDBEGBBBIGKCDMcGE
  bDbLCBBBFBYBBBXCFBBBHBKCEbGcUBbKEbNBbKBPBNbLhQBBFBCoNBECHBBBECbPBECbHBECHBBBECPBcFBECcPCbGDbAGdICGCyQBbC
  DdLHWJYJUMNBDBCMdQCKGKGOBLGdLHbRFcSKbFBMEMEBDbQCFLbSEbAGLDcKCcNBbDCLGKGOCbUCMUcZBgKIcIDPDcKFbRCLIbRFuOCG
  CbMCGCIBBBBBBBbFCcBBPBOCGBTCDBJRYIbVRCCbBBNDbIObHPfKEzQWLVcrSCoSFbTBBFBCcEHCOYJHBHBHBHBHBHBHBHBeWbIbABdL
  MiGbAQBcLBdICdZFbRBdQBdIJbWBbriRDcDJnKUhCIiNUcIDKGcEIcSIMGeMLbEDdABLEbHBcDJOCKCdZYbCKGCGCGJHBHBcIEeWCKGq
  nSMXEbXmnCoCCeCbMHMFFbABFBBBCBCBzAbGbQGbZBTBEEFBfFEhIDGCGCGCDDHBHNCCMBbABTBCBPCObIeTFDEbTDdKBNDBbVbUfAbD
  DbXPbCEbKJbEFbRFbEBbLEObQgCCKGbKEbKEbOIcALMBPBHBCBLBPBHBCDcAMlZJWKIYGBbQBJcRGCBBbSBCDBCXBcUIJbWTBCFbHDbB
  FbBbMcEEUCbYBCFIBDBbDCDEKHJHcMbGbNEMJcCDbDCbBFbAHEMHdCcVcDbZNbZHbUIKGbMDbDICiAbFBbQBDCCQGIJbHbUIbQWbAbMb
  CUXJdAEbKJcKBFNZHKGcBBSIbNJdSBULSBbVcKHBBBEBPBLGcHFKGEBICCCWBHBCBFBKCCCDCBGBFHCHDFLKBBCBBbMBKBBCBBEBKBCI
  CbDdOBFbEcUIKgKcCCbMbIcRLKGNTcGGKGUbCbBCPEXhDcIdWdFMICBCIBCBbEBCCMJKcSICbUCLbBcUIdFNcVHKdIIdKbIOKGJBbTBO
  KbDDbGCWBOcVHBCBbSDBBCBJIKGGBCBbLBCBGHKGbSEKjMZHRBbPDbDdHBPbYNbjNdYeHBFLhOdxKdVNbpGQWKfxRFwLkdDcGcoSvXHb
  FBKEdDBKGbECGKcSKKBHBVFTqQcGhQdNFZCZbScXEcFHRcMFLHJkxYbPbGdTeLmwREBHBCBlFPBbDDCBOEIpGdkUeDFNDJHKCEfvKjTD
  qUGXPRPbUCXJeMcIjMKbNCcWIeIVcSeSUMUMdJJZfFdHBcTBCCBCCCEBMBBBHBcNBECIBHBbCBEBFBBDHBnCClGCbbAPFBPbqMbFGGiF
  HBRCHBCBFFcKbHBeIbTDOCKECmIbFRcGFBrWbQiGbREBhKbFBWICiQHBEBCBPBhPCQbPcYEKECbeFcQcYcJhMEBbBBCBBCBBKBEBBBBG
  BEBBBBBBDBCBBCBBBBBBBBBBCBBCEBHBEBEBBBKBRFDBFBRcACkKbSEdWMPCPBPBbLKgScEbDNbSEJHCOGfYblXDRDNDiKGMEBPMEcEI
  KGbOIbECMECOJbNnGIOCNDLDcFBBEQCMEKHfRBdZbnPclfCbGgmOCioCClbLPxYdqWuWcfYhhZFmoObogxYjG"

/-- Whether the character is shown as itself in quoted text. -/
def isPrintable (c : Char) : Bool :=
  if c.toNat < 0x80 then decide (0x20 ≤ c.toNat ∧ c.toNat < 0x7f)
  else inRuns printableRuns c.toNat

/-! ## Quoting -/

/-- The lowercase hexadecimal digits of `n`, filled up with zeros to `width`. -/
def hexDigits (width n : Nat) : List Char :=
  let ds := Nat.toDigits 16 n
  List.replicate (width - ds.length) '0' ++ ds

def escape (quote c : Char) : List Char :=
  if c = quote ∨ c = '\\' then ['\\', c]
  else if isPrintable c then [c]
  else
    match c.toNat with
    | 7 => ['\\', 'a']
    | 8 => ['\\', 'b']
    | 12 => ['\\', 'f']
    | 10 => ['\\', 'n']
    | 13 => ['\\', 'r']
    | 9 => ['\\', 't']
    | 11 => ['\\', 'v']
    | n =>
      if n < 0x80 then '\\' :: 'x' :: hexDigits 2 n
      else if n < 0x10000 then '\\' :: 'u' :: hexDigits 4 n
      else '\\' :: 'U' :: hexDigits 8 n

def quote (s : String) : String := String.ofList ('"' :: s.toList.flatMap (escape '"') ++ ['"'])

/-- The single quote. -/
def apostrophe : Char := Char.ofNat 39

def quoteChar (c : Char) : String := String.ofList (apostrophe :: escape apostrophe c ++ [apostrophe])

/-! ## Reading -/

def hexValue? (c : Char) : Option Nat :=
  if '0' ≤ c ∧ c ≤ '9' then some (c.toNat - 48)
  else if 'a' ≤ c ∧ c ≤ 'f' then some (c.toNat - 87)
  else if 'A' ≤ c ∧ c ≤ 'F' then some (c.toNat - 55)
  else none

def hexNumber? (cs : List Char) : Option Nat :=
  cs.foldl (fun acc c => acc.bind fun n => (hexValue? c).map (16 * n + ·)) (some 0)

def hexOfBytes (bs : List UInt8) : String := String.ofList (bs.flatMap fun b => hexDigits 2 b.toNat)

def bytesOfHex : List Char → List UInt8
  | a :: b :: rest => UInt8.ofNat ((hexNumber? [a, b]).getD 0) :: bytesOfHex rest
  | _ => []

/-- The character with a code, if there is one. -/
def charOf? (n : Nat) : Option Char := if n.isValidChar then some (Char.ofNat n) else none

/-- The character that a backslash and one letter stand for. -/
def shortEscape? : Char → Option Char
  | 'a' => some (Char.ofNat 7)
  | 'b' => some (Char.ofNat 8)
  | 'f' => some (Char.ofNat 12)
  | 'n' => some (Char.ofNat 10)
  | 'r' => some (Char.ofNat 13)
  | 't' => some (Char.ofNat 9)
  | 'v' => some (Char.ofNat 11)
  | '\\' => some '\\'
  | '"' => some '"'
  | _ => none

def octalValue? (c : Char) : Option Nat := if '0' ≤ c ∧ c ≤ '7' then some (c.toNat - 48) else none

def octalByte? (a b c : Char) : Option UInt8 := do
  let n := 64 * (← octalValue? a) + 8 * (← octalValue? b) + (← octalValue? c)
  if n < 256 then some (UInt8.ofNat n) else none

def bytes (s : String) : List UInt8 := s.toUTF8.data.toList

def bytesOfChar (c : Char) : List UInt8 := bytes (String.singleton c)

def codedBytes? (digits : List Char) : Option (List UInt8) := ((hexNumber? digits).bind charOf?).map bytesOfChar

/-- The bytes between double quotes, with escapes resolved. Escapes with two hexadecimal or three
octal digits write one byte, which need not be a character; all others write a character. -/
def unescape? : List Char → Option (List UInt8)
  | [] => some []
  | '\\' :: 'x' :: a :: b :: rest => do
    let n ← hexNumber? [a, b]
    return UInt8.ofNat n :: (← unescape? rest)
  | '\\' :: 'u' :: a :: b :: c :: d :: rest => do
    let bytes ← codedBytes? [a, b, c, d]
    return bytes ++ (← unescape? rest)
  | '\\' :: 'U' :: a :: b :: c :: d :: e :: f :: g :: h :: rest => do
    let bytes ← codedBytes? [a, b, c, d, e, f, g, h]
    return bytes ++ (← unescape? rest)
  | '\\' :: a :: b :: c :: rest =>
    match shortEscape? a with
    | some char => (unescape? (b :: c :: rest)).map (bytesOfChar char ++ ·)
    | none => do
      let byte ← octalByte? a b c
      return byte :: (← unescape? rest)
  | '\\' :: a :: rest => do
    let char ← shortEscape? a
    return bytesOfChar char ++ (← unescape? rest)
  | c :: rest =>
    if c = '\n' ∨ c = '"' ∨ c = '\\' then none else (unescape? rest).map (bytesOfChar c ++ ·)

end Tether.Text
