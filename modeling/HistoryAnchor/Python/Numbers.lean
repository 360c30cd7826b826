import HistoryAnchor.Python.Text

/-! # Integers from text

`int(str)` in base ten. It skips the spaces around the number, takes a sign and the
digits of any script, and allows one underscore between two digits.
-/

namespace Python

/-- The zeros of the scripts with decimal digits; the other nine follow each of them. The tables are
those of Unicode 14, which Python 3.11 has. -/
def decimalZeros : List ℕ :=
  [0x30, 0x660, 0x6F0, 0x7C0, 0x966, 0x9E6, 0xA66, 0xAE6, 0xB66, 0xBE6, 0xC66, 0xCE6, 0xD66, 0xDE6,
   0xE50, 0xED0, 0xF20, 0x1040, 0x1090, 0x17E0, 0x1810, 0x1946, 0x19D0, 0x1A80, 0x1A90, 0x1B50,
   0x1BB0, 0x1C40, 0x1C50, 0xA620, 0xA8D0, 0xA900, 0xA9D0, 0xA9F0, 0xAA50, 0xABF0, 0xFF10, 0x104A0,
   0x10D30, 0x11066, 0x110F0, 0x11136, 0x111D0, 0x112F0, 0x11450, 0x114D0, 0x11650, 0x116C0,
   0x11730, 0x118E0, 0x11950, 0x11C50, 0x11D50, 0x11DA0, 0x16A60, 0x16AC0, 0x16B50, 0x1D7CE,
   0x1D7D8, 0x1D7E2, 0x1D7EC, 0x1D7F6, 0x1E140, 0x1E2F0, 0x1E950, 0x1FBF0]

def decimalDigit (c : CodePoint) : Option ℕ :=
  (decimalZeros.find? fun z => z ≤ c.val ∧ c.val < z + 10).map (c.val - ·)

/-- The other digits of Unicode 14: superscripts, subscripts, circled digits and the like, from first
to last. -/
def otherDigits : List (ℕ × ℕ) :=
  [(0xB2, 0xB3), (0xB9, 0xB9), (0x1369, 0x1371), (0x19DA, 0x19DA), (0x2070, 0x2070),
   (0x2074, 0x2079), (0x2080, 0x2089), (0x2460, 0x2468), (0x2474, 0x247C), (0x2488, 0x2490),
   (0x24EA, 0x24EA), (0x24F5, 0x24FD), (0x24FF, 0x24FF), (0x2776, 0x277E), (0x2780, 0x2788),
   (0x278A, 0x2792), (0x10A40, 0x10A43), (0x10E60, 0x10E68), (0x11052, 0x1105A),
   (0x1F100, 0x1F10A)]

/-- `str.isdigit` of one character. -/
def isDigitChar (c : CodePoint) : Bool :=
  (decimalDigit c).isSome || otherDigits.any fun (first, last) => first ≤ c.val ∧ c.val ≤ last

/-- `str.isdigit`. -/
def isDigitText (s : PyStr) : Bool := !s.isEmpty && s.all isDigitChar

theorem isDigitText_iff {s : PyStr} : isDigitText s = true ↔ s ≠ [] ∧ ∀ c ∈ s, isDigitChar c := by
  rw [isDigitText, Bool.and_eq_true_iff, Bool.not_eq_true', List.isEmpty_eq_false_iff,
    List.all_eq_true]

theorem isDigitChar_ascii {c : CodePoint} (h : c.val < 128) :
    isDigitChar c = decide (48 ≤ c.val ∧ c.val ≤ 57) := by
  have hall : ∀ n < 128, isDigitChar (Fin.ofNat _ n) = decide (48 ≤ n ∧ n ≤ 57) := by
    decide +kernel
  have hc : c = Fin.ofNat _ c.val := by
    apply Fin.ext
    rw [Fin.val_ofNat, Nat.mod_eq_of_lt c.isLt]
  have hn := hall c.val h
  rwa [← hc] at hn

/-- A space that surrounds a number: those of C, and the others outside ASCII. -/
def isNumberSpace (c : CodePoint) : Bool := if c.val < 127 then isAsciiSpace c else isSpace c

def underscoredDigits : PyStr → Option (List ℕ)
  | [] => none
  | [c] => (decimalDigit c).map fun n => [n]
  | c :: d :: s => do
    let n ← decimalDigit c
    let ns ← if d.val = 0x5F then underscoredDigits s else underscoredDigits (d :: s)
    return n :: ns

/-- `int(s)`; `none` is its `ValueError`, also for more than 4300 digits. -/
def int (s : PyStr) : Option ℤ := do
  let s := ((s.dropWhile isNumberSpace).reverse.dropWhile isNumberSpace).reverse
  let negative := s.head? = some 0x2D
  let digits ← underscoredDigits (if negative ∨ s.head? = some 0x2B then s.tail else s)
  if 4300 < digits.length then none
  let n : ℤ := digits.foldl (fun n d => 10 * n + d) 0
  return if negative then -n else n

example : int " -1_03 " = some (-103) ∧ int [0x663] = some 3 ∧ int "1__0" = none := by decide

end Python
