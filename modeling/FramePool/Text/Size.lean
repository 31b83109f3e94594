/-!
# Byte counts for people

A byte count is written in the largest binary unit that it reaches, with at most two decimals. The
decimals are cut, not rounded, and trailing zeros are dropped: `1536` is `1.5KiB`, `1025` is
`1KiB`.
-/

namespace FramePool.Text

-- Powers are those of the core library, whatever else is imported.
attribute [local instance (high)] instPowNat

/-- The binary units, each 1024 times the one before. -/
def units : List String := ["B", "KiB", "MiB", "GiB", "TiB", "PiB", "EiB"]

/-- The index of the largest unit that is at most `n` bytes; bytes for `0`. -/
def unitIndex (n : Nat) : Nat :=
  ((List.range units.length).reverse.find? fun u ↦ 1024 ^ u ≤ n).getD 0

/-- A fraction of hundredths, without its trailing zeros and without a bare point. -/
def hundredthsText (h : Nat) : String :=
  if h = 0 then ""
  else if h % 10 = 0 then s!".{h / 10}"
  else if h < 10 then s!".0{h}"
  else s!".{h}"

/-- The text of a byte count. -/
def size (n : Nat) : String :=
  let u := unitIndex n
  let scale := 1024 ^ u
  toString (n / scale) ++ hundredthsText (n % scale * 100 / scale) ++ units.getD u ""

example : size 1025 = "1KiB" := by decide +kernel

example : size 1536 = "1.5KiB" := by decide +kernel

example : size (2 ^ 64 - 1) = "15.99EiB" := by decide +kernel

end FramePool.Text
