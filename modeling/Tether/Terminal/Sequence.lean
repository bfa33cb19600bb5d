/-!
# Control sequences

A terminal takes some bytes as commands: an escape and what follows it, up to the end of the
command. `Sequence` says inside which command a text stands, and `Sequence.next` what a byte does to
that. Only what stands outside of all commands is shown.
-/

namespace Tether.Terminal

inductive Sequence where
  | ground
  | escape
  | escapeIntermediate
  | control | controlParameter | controlIntermediate
  /-- The start, the parameters, the intermediate bytes and the data of a device string. -/
  | device | deviceParameter | deviceIntermediate | deviceData
  | system
  | ignored
deriving DecidableEq

namespace Sequence

/-- What the control bytes beyond ASCII start or end; they do so wherever they stand. -/
def ofHighByte (b : Nat) : Sequence :=
  match b with
  | 0x90 => device
  | 0x98 | 0x9e | 0x9f => ignored
  | 0x9b => control
  | 0x9d => system
  | _ => ground

def ofEscaped (b : Nat) : Sequence :=
  match b with
  | 0x50 => device
  | 0x58 | 0x5e | 0x5f => ignored
  | 0x5b => control
  | 0x5d => system
  | _ => ground

variable (s : Sequence) (b : Nat)

/-- Where a text stands after one more ASCII character, control characters apart. -/
def afterPrintable : Sequence :=
  let intermediate := b < 0x30
  let parameter := b < 0x40
  match s with
  | ground => ground
  | escape => if intermediate then escapeIntermediate else ofEscaped b
  | escapeIntermediate => if intermediate then escapeIntermediate else ground
  | control | controlParameter =>
    if intermediate then controlIntermediate else if parameter then controlParameter else ground
  | controlIntermediate => if intermediate then controlIntermediate else ground
  | device | deviceParameter =>
    if intermediate then deviceIntermediate else if parameter then deviceParameter else deviceData
  | deviceIntermediate => if intermediate then deviceIntermediate else deviceData
  | deviceData => deviceData
  | system => system
  | ignored => ignored

/-- Where a text stands after a control character. Two of them cancel every sequence, the escape
starts a new one, and most others do not matter. -/
def afterControl : Sequence :=
  match b, s with
  | 0x18, _ | 0x1a, _ => ground
  | 0x1b, device => deviceData
  | 0x1b, _ => escape
  | 0x07, system => ground
  | b, device => if 0x08 ≤ b ∧ b ≤ 0x0d then deviceData else device
  | _, s => s

def next : Sequence :=
  if b < 0x20 ∨ b = 0x7f then s.afterControl b
  else if b < 0x80 then s.afterPrintable b
  else
    match s with
    | deviceData => if b = 0x9c then ground else deviceData
    | system => if b = 0x9c then ground else system
    | _ => ofHighByte b

/-- Whether a sequence takes all bytes as they are, also those of characters beyond ASCII. -/
def takesBytes : Sequence → Bool
  | deviceData | system => true
  | _ => false

end Sequence

end Tether.Terminal
