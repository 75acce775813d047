import Cascade.Text

/-!
# File contents

What reading a file can give: its text, the first byte that keeps it from being
text, or the reason why it cannot be read at all. Files are UTF-8, and
`Contents.ofBytes` is its decoder: the shortest form of every scalar value, no
surrogates, nothing above U+10FFFF.
-/

namespace Cascade

inductive Contents where
  | text (t : Text)
  /-- Not UTF-8; `byte` begins the first ill-formed sequence. -/
  | undecodable (byte : UInt8)
  | unreadable (reason : Text)
deriving DecidableEq, Repr

namespace Contents

/-- The bounds of the second byte of a sequence, by its first byte, and the
number of bytes after the first. -/
def continuation? (first : Nat) : Option (Nat × Nat × Nat) :=
  if 0xC2 ≤ first ∧ first ≤ 0xDF then some (0x80, 0xBF, 1)
  else if first = 0xE0 then some (0xA0, 0xBF, 2)
  else if first = 0xED then some (0x80, 0x9F, 2)
  else if 0xE1 ≤ first ∧ first ≤ 0xEF then some (0x80, 0xBF, 2)
  else if first = 0xF0 then some (0x90, 0xBF, 3)
  else if 0xF1 ≤ first ∧ first ≤ 0xF3 then some (0x80, 0xBF, 3)
  else if first = 0xF4 then some (0x80, 0x8F, 3)
  else none

/-- The six low bits of a byte that continues a sequence. -/
def tail? (b : UInt8) : Option Nat :=
  if 0x80 ≤ b.toNat ∧ b.toNat ≤ 0xBF then some (b.toNat - 0x80) else none

/-- One character off the front of a non-empty list of bytes. -/
def decodeChar? : List UInt8 → Option (Char × List UInt8)
  | [] => none
  | a :: rest =>
    if a.toNat < 0x80 then some (Char.ofNat a.toNat, rest)
    else
      match continuation? a.toNat, rest with
      | some (low, high, more), b :: rest =>
        if low ≤ b.toNat ∧ b.toNat ≤ high then
          match more, rest with
          | 1, rest => some (Char.ofNat ((a.toNat - 0xC0) * 64 + (b.toNat - 0x80)), rest)
          | 2, c :: rest =>
            (tail? c).map fun z =>
              (Char.ofNat (((a.toNat - 0xE0) * 64 + (b.toNat - 0x80)) * 64 + z), rest)
          | 3, c :: d :: rest => do
            let y ← tail? c
            let z ← tail? d
            some (Char.ofNat ((((a.toNat - 0xF0) * 64 + (b.toNat - 0x80)) * 64 + y) * 64 + z), rest)
          | _, _ => none
        else none
      | _, _ => none

/-- The text that `fuel` or fewer characters spell. A list of bytes spells no
more characters than it has bytes. -/
def decode : (fuel : Nat) → List UInt8 → Except UInt8 Text
  | _, [] => .ok []
  | 0, a :: _ => .error a
  | fuel + 1, a :: rest =>
    match decodeChar? (a :: rest) with
    | some (c, rest) => (decode fuel rest).map (c :: ·)
    | none => .error a

def ofBytes (bytes : List UInt8) : Contents :=
  match decode bytes.length bytes with
  | .ok t => text t
  | .error byte => undecodable byte

/-- The two upper-case hexadecimal digits of a byte. -/
def hexByte (b : UInt8) : Text :=
  let digit (n : Nat) := ("0123456789ABCDEF".toList[n]?).getD '0'
  [digit (b.toNat / 16), digit (b.toNat % 16)]

end Contents

end Cascade
