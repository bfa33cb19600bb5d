/-!
# Letters and digits

The characters of which names are made.
-/

namespace Tether.Text

/-! ## Runs of characters

A table of characters lists the lengths of its runs of code points: how many to leave out, how many
belong, how many to leave out after these, and so on. It is written in letters. -/

def numbersFrom (n : Nat) : List Char → List Nat
  | [] => []
  | c :: cs =>
    if c.isUpper then (n * 26 + (c.toNat - 'A'.toNat)) :: numbersFrom 0 cs
    else numbersFrom (if c.isLower then n * 26 + (c.toNat - 'a'.toNat) else n) cs

/-- The numbers that letters list: the digits of each in base 26, the last of them a capital. Blanks are
read over. -/
def numbers (s : String) : List Nat := numbersFrom 0 s.toList

def inRuns : List Nat → Nat → Bool
  | gap :: length :: runs, n =>
    if n < gap then false
    else if n - gap < length then true
    else inRuns runs (n - gap - length)
  | _, _ => false

/-! ## Letters -/

def letterRuns : List Nat := numbers
  "gOBKBEBFXBbFBrQEMOFHBBBeZFBCCEBBGBBDBBBUBdFBfJIgKBbMCBGbPcTbBEEbTbRbJCBdVBBPCHCKDCBQBBbEbDdLLBYbHJCEBFWE
  BJBDBXZHLFYBHQbQcGcCDBSBHKPQEICCCWBHBBDEDBQBNCBDOCKBIGECCWBHBCBCBCbFEBBTDQJBDBWBHBCBFDBSBPCXBLICCCWBHBCB
  FDBbECBDPBRBBGDDBEDCBBBCDCDDDMWBcAIBDBXBQDBbADBCCCbEBEIBDBXBKBFDBbEDBCPCRJBDBbPCBQBFDIDYGFSDYBJBBCHcGbWB
  CMHcGCBBBFBYBBBKBCJBCFBBVEbGBcLIBbKbBFeLbRUBQGEEDBDCHDENMBRbMBBFBCbRBmVBECHBBBECbPBECbHBECHBBBECPBcFBECc
  PbLQQdICGDxWCRBbAFcXGIHSNTOSONBDPcAbJBEBcPdLHFCbIBBFcSKbFbXbECFLbSEbAcCXJcBdEBdPbVRIcCbENCKbSbAbKbPDKbKC
  LFbRCDbPEBGBCDBFhKcMkSCGCbMCGCIBBBBBBBbFCcBBHBBDDBHDECGENFDBHeMBNBQNdXBEBCKBBDFGBBBBBBEBLCEFFEBcACdzFiVG
  EDCMbMBBFBCcEHBQXJHBHBHBHBHBHBHBHdCBsBCbQFFCEdIGDBdMBEFbRBdQRbGbWQtSjtOcMbguFcPbUCkJDQKCUbVQbFCcSbXJCdZC
  dEURBDBEBXbDcAObYcKGDBBCLbCKXZbDHbVbCBQFBKKFBbPXDBIUXDBDbYBBDCCFCBBBYDCLHDMGCGCGJHBHBbRBOGeLbDqnSMXEbXmn
  CoCCeCbMHMFFBBKBNBFBBBCBCBeEbHnZScMCcCbOMeMFBfFbKbAGbALdLDGCGCGCDbJMBbABTBCBPCObIeToZbDDbXbVbGNUBIGbMKbE
  CbKEIbWgCSbKEbKEbOIcAMLBPBHBCBLBPBHBCDcAMlZJWKIYGBbQBJcRGCBBbSBCDBCXKXJbFcNTBCKWKbAGbAbMcEGCcMBPEBDBbDbQ
  bDDbDbJIBbCbBcCKWKTNSeGcVcDbZNbZNbKbMbCJXjQbQGCQGcEbDKBIWbQSbUVbBXMcBcFCCBNbTbGZbAbKbDBCBIbJDBMbWOEVBBBb
  JSBZTCcLHBBBEBPBKHbVbMICCCWBHBCBFDBSBMFbEKBBCBBbMBBZBBBbScBSEUDbEbWUCBBhCbVbPEbKbWUBcHbRNBcTbBbLHhDbSeMc
  MbFICBCIBCBYPBBBdQICbNQBBBbCBKbOHBVBLbUTBScVhRbHbFJBbLRBbXbEeIHBCBbMVBZGBCBbGOBXbSkATPBBNBbIeUBdBbjMiWhO
  dxKdTPbpGRGZfxRFwLkdDbEcpUvXHbFRdBRbESbWQEbFVFTqQbTiDcMbGZCZbScXFBcONcMCBBOCMkxYbPbGdTeLmwREBHBCBlFPBbDD
  CBOEIpGdkUeDFNDJHKiwKdHBcTBCCBCCCEBMBBBHBcNBECIBHBbCBEBFBBDHBnCCZBZBbFBZBbFBZBbFBZBbFBZBIcsYbFGGkBcKfQbT
  KHQBmJbESbSsQbCiUbECBhZbFBDBCBHCFJCiQHBEBCBPBhPcHcQHBbuIEBbBBCBBCBBKBEBBBBGBEBBBBBBDBCBBCBBBBBBBBBBCBBCE
  BHBEBEBBBKBRFDBFBRgoAclfCbGgmOCioCClbLPxYdqWuWcfYhhZFmoO"

def digitRuns : List Nat := numbers
  "ckUKfEKhQKpWKeOKeOKeOKeOKeOKeOKeOKeOKeOKdSKeOKcSKkSKcSKctQKbMKlOKeYKgKKGKhAKdIKfEKGKcaeOKbaCKbMKhQKWKdIK
  pQKbfmCKccKKdfYKGKbeQKeYKcIKfOKkSKnEKeOKoKKdYKGUcYKqGKdYKzMKdIKjMKcSKcCKnUKyyGKdmCKdIKfEKuOKbkdYKecQbYdn
  CKqGKtIKjNKbgVKhbAK"

def isLetter (c : Char) : Bool :=
  if c.toNat < 0x80 then c.isAlpha
  else inRuns letterRuns c.toNat

def isDigit (c : Char) : Bool :=
  if c.toNat < 0x80 then c.isDigit
  else inRuns digitRuns c.toNat

/-- Whether a text is a name: a letter or underscore, then letters, underscores and digits. -/
def isIdentifier (s : String) : Bool :=
  match s.toList with
  | [] => false
  | c :: cs =>
    (c == '_' || isLetter c) && cs.all fun d => d == '_' || isLetter d || isDigit d

end Tether.Text
