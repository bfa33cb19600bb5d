import Tether.Text.Letter

/-!
# Upper and lower case

The one-to-one case mappings of letters, and the comparison of texts that ignores case.
-/

namespace Tether.Text

/-- After `gap` code points that stay as they are, every `stride`-th of the next `length`, each mapped
by adding `delta`. -/
structure CaseRun where
  gap : Nat
  length : Nat
  stride : Nat
  delta : Int

/-- What is added to a code point of one of the runs, each counted from the end of the one before. -/
def caseDelta? : List CaseRun → Nat → Option Int
  | [], _ => none
  | r :: runs, n =>
    if n < r.gap then none
    else if n - r.gap < r.length then
      if (n - r.gap) % r.stride = 0 then some r.delta else none
    else caseDelta? runs (n - r.gap - r.length)

def caseSource? (n : Nat) : List CaseRun → Nat → Option Nat
  | [], _ => none
  | r :: runs, start =>
    let place : Int := n - r.delta - (start + r.gap)
    if 0 ≤ place ∧ place < r.length ∧ place % r.stride = 0 then some (start + r.gap + place.toNat)
    else caseSource? n runs (start + r.gap + r.length)

/-- The runs that numbers list, four to a run. A number `d` is written as `2 * d`, and `-d` as `2 * d - 1`. -/
def caseRuns : List Nat → List CaseRun
  | gap :: length :: stride :: n :: rest =>
    ⟨gap, length, stride, if n % 2 = 0 then n / 2 else -((n / 2 + 1 : Nat) : Int)⟩ :: caseRuns rest
  | _ => []

def lowerRuns : List CaseRun := caseRuns <| numbers
  "cNbABcMdXXBcMBHBcMbHbVCCBBBpHBFCCCPCCCbTCCBBBjHAFCCDBBqEADCCBBBpWABBCBCBpUABBCCBBgCABBpOABBpQABBCBBBpUAB
  BpYBBBqGABBqCABBCDBBqGABBqKBBBqMAFCCBBBqUABBCBBBqUCBBCBBBqUABBCBCBqSADCCBBBqWABBCDBBCHBBEABBCBBBEABBCBBB
  EARCCCRCCCBBEADCCBBBhLABBeHAbNCCBBBjZBRCCHBBbfyKABBCBBBmNABBbfyECBBCBBBoZABBfIABBfMAJCClDDCCDBBCIBBiYGBB
  cYBDBcWBBBeYBCBeWBRBcMBJBcMbJBBQIXCCFBBePCBBCBBBNABBCCDBjZAQBgEAbGBcMbWbHCCJcBCCBBBbEANCCCdRCCCbMBdSehDb
  MBvmUBBBvmUFBBvmUbbUdCBekzOAGBQdgLBBCGbRBixJCDBixJmIfTCCJBBwnTBdRCCJIBPIGBPKIBPIIBPIGBPLHCPIIBPYIBPIIBPI
  IBPICBPACBfRABBRLEBgPABBRLCBPACBhRMCBPACBiPABBNLCBjVACBjRABBRlLBBwgFDBByuVABBylNGBBcEbTQBbGTBBCbfMbABcAc
  sUbWBdSbWBBCBBBbfuJABBlhJABBbftDCFCCBBBbfxFABBbfuVABBbfxLABBbfxJBBBCCBBCICBbfzXAdVCCIDCCEBBCbtyJbTCCTbBC
  CfFNCCDcJCCKDCCBBBeanVAJCCEBBCBBBevcHCDCCDTCCBBBeveLABBevfHABBeveZABBeveFABBeveLBBBevaPABBevcLABBevaVABB
  ctKAPCCBBBdRABBeveJABBearVADCCBBBevhDAPCCBBBevxXYBBCbhaHbABcMbuZbOBdCfGbKBdCgALBdABPBdABHBdABCBdAcqCbZBe
  YgBWBcMegObGBcMbgjWbGBcMcMZBcCbuhZbIBcQ"

/-- The letters that no letter has as its lower-case counterpart although they have an upper-case
one, and the sharp s, whose upper case is two letters. -/
def upperOverrides : List (Nat × Nat) := [
  (0xb5, 0x39c), (0xdf, 0xdf), (0x131, 0x49), (0x17f, 0x53), (0x1c5, 0x1c4), (0x1c8, 0x1c7),
  (0x1cb, 0x1ca), (0x1f2, 0x1f1), (0x345, 0x399), (0x3c2, 0x3a3), (0x3d0, 0x392), (0x3d1, 0x398),
  (0x3d5, 0x3a6), (0x3d6, 0x3a0), (0x3f0, 0x39a), (0x3f1, 0x3a1), (0x3f5, 0x395), (0x1c80, 0x412),
  (0x1c81, 0x414), (0x1c82, 0x41e), (0x1c83, 0x421), (0x1c84, 0x422), (0x1c85, 0x422),
  (0x1c86, 0x42a), (0x1c87, 0x462), (0x1c88, 0xa64a), (0x1e9b, 0x1e60), (0x1fbe, 0x399)]

/-- The letters and numbers with a lower-case counterpart that are not upper-case letters. -/
def titleRuns : List Nat := numbers "rLBCBCBbMBlfHIIIIIMBPBbVBnRQbgGbA"

/-- The upper-case letters without a lower-case counterpart. -/
def loneUpperRuns : List Nat := numbers
  "blQDlbHBEBDDCDCBDFGBDBDCCCBBKCFBgiqKbAbAbAbAbAbABBCCBCCCEBIbAbAbACBECIBHbBCBEBFBBDHbBbAbAbAbAbAbAbAbAbAb
  AbAbEZbHZbHZbHZbHZbHB"

def toUpper (c : Char) : Char :=
  if c.toNat < 0x80 then c.toUpper
  else
    match upperOverrides.lookup c.toNat <|> caseSource? c.toNat lowerRuns 0 with
    | some n => Char.ofNat n
    | none => c

def toLower (c : Char) : Char :=
  if c.toNat < 0x80 then c.toLower
  else
    match caseDelta? lowerRuns c.toNat with
    | some delta => Char.ofNat ((c.toNat : Int) + delta).toNat
    | none => c

def isUpper (c : Char) : Bool :=
  if c.toNat < 0x80 then c.isUpper
  else if (caseDelta? lowerRuns c.toNat).isSome then !inRuns titleRuns c.toNat
  else inRuns loneUpperRuns c.toNat

/-- One representative for all characters that differ in case only. The dotted capital I and the
dotless small i, whose counterparts depend on the language, stand for themselves. Three letters
without a counterpart have two codes each. -/
def foldCase (c : Char) : Char :=
  match c.toNat with
  | 0x130 | 0x131 => c
  | 0x1fd3 => Char.ofNat 0x390
  | 0x1fe3 => Char.ofNat 0x3b0
  | 0xfb05 => Char.ofNat 0xfb06
  | _ => toLower (toUpper c)

def equalFold (s t : String) : Bool := s.toList.map foldCase == t.toList.map foldCase

def isSpace (c : Char) : Bool :=
  let n := c.toNat
  decide ((9 ≤ n ∧ n ≤ 13) ∨ n = 0x20 ∨ n = 0x85 ∨ n = 0xa0 ∨ n = 0x1680 ∨ (0x2000 ≤ n ∧ n ≤ 0x200a) ∨
    n = 0x2028 ∨ n = 0x2029 ∨ n = 0x202f ∨ n = 0x205f ∨ n = 0x3000)

def trim (s : String) : String := String.ofList ((s.toList.dropWhile isSpace).reverse.dropWhile isSpace).reverse

/-! ## Spellings of names

Names of the interface are written in lower case with hyphens, names of native fields and of script
properties in words with capitals. -/

/-- Writes a hyphen before every upper-case letter but the first, and all letters in lower case. -/
def toKebab (s : String) : String :=
  match s.toList with
  | [] => ""
  | c :: rest =>
    String.ofList ((if isUpper c then toLower c else c) ::
      rest.flatMap fun c => if isUpper c then ['-', toLower c] else [c])

/-- Drops hyphens and underscores; the letter after each, and the first, is put in upper case if
`up`. -/
def pascalFrom : Bool → List Char → List Char
  | _, [] => []
  | up, c :: rest =>
    if c = '-' ∨ c = '_' then pascalFrom true rest
    else if up then toUpper c :: pascalFrom false rest
    else c :: pascalFrom false rest

def toPascal (s : String) : String := String.ofList (pascalFrom true s.toList)

def sameName (name text : String) : Bool :=
  equalFold (String.ofList (name.toList.filter (· != '-'))) (String.ofList (text.toList.filter (· != '-')))

end Tether.Text
