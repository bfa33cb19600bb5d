import Tether.Text.Letter

/-!
# Characters on a terminal

How a character joins its neighbours and how many columns it takes.
-/

namespace Tether.Terminal

open Text (inRuns numbers)

/-! ## Tables -/

def extendRuns : List Nat := numbers
  "bdOeIkPHkDbTBBBCBCBBcULbWVQBdXHCGCCBEbJBbEbBdNLcGJJBYEBJBDBFbRDcIIbQYBbGcDBBBEIEBDHKCbDBcGBBBCEIBJBKCbAB
  CCcFBECECCDDBbECDBLCcFBEFBCEBUCWGBBcGBBCBEIBHDKCbEBcHBBBMBJBbOBDBcDBBDFDBEHCLCbDBcGBCBCBDBFCHCLCbCCcFCBB
  CEIBJBKCbDBcUBEBCDBBIBdDBCHMIdUBCJLHcVCbBBBBBBcDOBFBCFLBbKJBdYEBGBCCCZCEDQENBCCGBPBbbBDbkKDbDCbECbECcMCB
  HIBCLJBbTDBBeNCbIBeODECJBGDiLCCBcGBBHBBBBCIGKCBbWbFbXEbWHBBFBbOJMCbGECCBDcEBBCDBBDcGICCfWDBNBHEBGBDChQcM
  uEBhNbHeoCDfLBdSbGvIGeBCbsqEEBKbGCdCCkMBDBEBZCFBfVCbASNBbMIZLbUDbWBCECCbNBcPGCCCCMBIBbVBbZBBDCCFCBBbQCIB
  jEBCBEBbdzSBbcJQQQoCCxHBiSBfTFcmGDBCFEbODEBgJCwBEoXCdCDcSLbXEeTBcCPbPBCCKDbXECCHBcJDbKFBIcKBMCcAJKECBdRD
  CBBCGBCBgBBDIVCcFCBBBBWBOHDFhNICDBBXBdDBCGBBCBBCBCjBBCEGCBCbBCdHICBBCeCBBBCGBBdXDCEBFjZJBCjLBKCBBEBfOECC
  EBbGKbOGCEIBJGCDbUNBCpQHBGBBdEWCHBCBCeSGDBBCBHBBcUCDBBBnJCLCcAFFBBBhyRBGPurQFcHHboIBcLEdDBbdbKCgyZbUCXuW
  BBDEFIICHbEEfSDcyDcDEbYIBOBWFBPcaIHBRCHBCBFdWBgEHoLBcJEtOEbmEHeFHebGFbsxyUdSeYjG"

def spacingRuns : List Nat := numbers
  "dkTBcDBCDIEBCbYCcHCGCCCcCBcGDcOBcGDIBBCcBCcIBGCCCeKBBCDDBDcADcJEcJCcGBBCBCCCBCbNBOCcHCFDBDcBCcYCGHTCcLBe
  XBfICcLBgVBJCZCbSBcmQBbEBeZBHIBCnIECDECBGiQCcGBBBVGfPBcCBBFBCcJBbEBECCBcIBCDBBDCbWIICgPBVBcasHCCBdKCbYQf
  MCbVBbWCECCDeGCCCYBgBBCCFBjDCBCBCBBblxJBBBeXBbTDECeLBYCcHBbWDJCNBdPDDCBBgODbFCcHBBECCCDUCiBDICDBeDCGBBCB
  BCBjECGECBeJDICBBeFBBCGBeHBkBDJBjOFBCEBCBBBfMDIEEBdGBbDCcKBpRBOBeCBHBCBiFFECBBnMCMBbWCICBBbeiHcDeACbkxOB
  GB"

def leadingRuns : List Nat := numbers "chCGiHBbXBoUCdCBbrNBdugKBPBjKCcvRBBBjOBcVGbaYBrBB"

def controlRuns : List Nat := numbers "AKBCBSdRbHNBcbMBguRBdaQBCCYHbXQdghJBjGMtuAQbzqUEhwXIbtkzLbGdSeYjGfiM"

def pictographRuns : List Nat := numbers
  "gNBEBlyRBMBiIBWBdMGPCoDCMBdRBcSBZLEDhRBiXCKBJBcGEBGBMBeKKeOCLBBBBGBDBGBKCPBCBEBBBEDBBLFbTDJBOBOBoICrVDTC
  bZBEBbvUBMBxDBBBgmrMjWNDbFBcIGMCOBCKScFbBPKBUBCJBEJqSFmGIkGbWeYeMMdHbRMEcEIKGbOIbEdEMbVBKBqZjWbnI"

def emojiRuns : List Nat := numbers
  "nhQChXEDBCBuBCVCbYMbRBTBNBICRCFCIBFBVBHCBBEBCBHBECbCBbJBBBEDBBcJDYBOBbhBCbZBEBgplEBhUBhIBCKcXbABBYBUBCFB
  DVCgSbHMJBcSBWMbREFMRDBDcTBBBhFCcLNEBYSBbACNBdIdHbWcSGBDDCDEELCHJiTMEBkXbVBKBhDeINDJHbUBHIOEJHJ"

def wideRuns : List Nat := numbers
  "glKdSgsOCNChIEDBCBuBCVCbYMbRBTBNBICRCFCIBFBVBHCBBEBCBHBECbCBbJBBBEDBBcJDYBOBbhBCbZBEBbfEbABdLMiGbAMEcLCd
  ICdZFbRBdQBdGMbVBbOIkkEcMbguFDcDbtHbDyTqnSmqMtSbeEKWbJBTBEfTdSeXHbqkNFLCOjcAIbvQbQJnfREBHBCBlFPBbDDCBOEI
  pGxcYBhUBhIBCKdXDNbSEJHCOGfYbHMJBcSBWMbREFMRDBDcTBBBhFCcLNEBYSBbACNBdIdHbWcSGBDDCDEELCHJiTMEBkXbVBKBhDeI
  NDJHbUBHIOEJHJbxNdsyOCdsyO"

/-! ## Sorts -/

/-- The sorts of characters by how they join their neighbours. -/
inductive Sign where
  | plain
  | carriageReturn
  | lineFeed
  | control
  | extend
  | joiner
  | spacing
  /-- A sign that joins the character after it. -/
  | leading
  | flag
  | pictograph
  | hangulL | hangulV | hangulT
  /-- Korean syllables without and with a trailing consonant. -/
  | hangulLV | hangulLVT
deriving DecidableEq

namespace Sign

def hangul? (n : Nat) : Option Sign :=
  if (0x1100 ≤ n ∧ n ≤ 0x115f) ∨ (0xa960 ≤ n ∧ n ≤ 0xa97c) then some hangulL
  else if (0x1160 ≤ n ∧ n ≤ 0x11a7) ∨ (0xd7b0 ≤ n ∧ n ≤ 0xd7c6) then some hangulV
  else if (0x11a8 ≤ n ∧ n ≤ 0x11ff) ∨ (0xd7cb ≤ n ∧ n ≤ 0xd7fb) then some hangulT
  else if 0xac00 ≤ n ∧ n ≤ 0xd7a3 then
    some (if (n - 0xac00) % 28 = 0 then hangulLV else hangulLVT)
  else none

def listed (n : Nat) : Sign :=
  if inRuns controlRuns n then control
  else if inRuns extendRuns n then extend
  else if inRuns spacingRuns n then spacing
  else if inRuns leadingRuns n then leading
  else if inRuns pictographRuns n then pictograph
  else plain

def ofChar (c : Char) : Sign :=
  match c.toNat with
  | 0x0d => carriageReturn
  | 0x0a => lineFeed
  | 0x200d => joiner
  | n =>
    if 0x20 ≤ n ∧ n < 0x7f then plain
    else if 0x1f1e6 ≤ n ∧ n ≤ 0x1f1ff then flag
    else (hangul? n).getD (listed n)

def columns (c : Char) : Sign → Nat
  | carriageReturn | lineFeed | control | extend | joiner => 0
  | flag => 2
  | pictograph => if inRuns emojiRuns c.toNat then 2 else 1
  | _ =>
    match c.toNat with
    | 0x2e3a => 3
    | 0x2e3b => 4
    | n => if inRuns wideRuns n then 2 else 1

end Sign

end Tether.Terminal
