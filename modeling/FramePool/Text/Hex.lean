/-!
# Addresses for people

An address is written in upper-case hexadecimal, with a line between groups of four digits counted
from the right. The first group has no leading zeros, the others have exactly four digits:
`0x20_0010`.
-/

namespace FramePool.Text

/-- The upper-case hexadecimal digit of a number below sixteen. -/
def hexDigit (d : Nat) : Char :=
  if d < 10 then Char.ofNat (48 + d) else Char.ofNat (55 + d)

/-- The hexadecimal digits of a number, without leading zeros. -/
def hexDigits (n : Nat) : List Char :=
  if n < 16 then [hexDigit n] else hexDigits (n / 16) ++ [hexDigit (n % 16)]

/-- The last four hexadecimal digits of a number. -/
def hexGroup (n : Nat) : List Char :=
  [hexDigit (n / 4096 % 16), hexDigit (n / 256 % 16), hexDigit (n / 16 % 16), hexDigit (n % 16)]

/-- The hexadecimal digits of a number in groups of four. -/
def hexGroups (n : Nat) : List Char :=
  if n < 65536 then hexDigits n else hexGroups (n / 65536) ++ '_' :: hexGroup n

/-- The text of an address. -/
def address (n : Nat) : String := "0x" ++ String.ofList (hexGroups n)

example : address 0 = "0x0" := by decide +kernel

example : address 0x200010 = "0x20_0010" := by decide +kernel

end FramePool.Text
