import HistoryAnchor.Python.Text

/-! # Base64 and ISO 8601

`base64.b64decode` with `validate=True`, and what `datetime.fromisoformat`
accepts: its callers ask only whether it raises and whether there is a time zone.
-/

namespace Python

def base64Value (c : CodePoint) : Option ℕ :=
  let n := c.val
  if 65 ≤ n ∧ n ≤ 90 then some (n - 65)
  else if 97 ≤ n ∧ n ≤ 122 then some (n - 71)
  else if 48 ≤ n ∧ n ≤ 57 then some (n + 4)
  else if n = 43 then some 62
  else if n = 47 then some 63
  else none

/-- `base64.b64decode(s, validate=True)`; `none` is its `binascii.Error`. The excess padding that some
versions of CPython let through is refused. -/
def b64decode : PyStr → Option Bytes
  | [] => some []
  | a :: b :: c :: d :: s => do
    let x ← base64Value a
    let y ← base64Value b
    let first := UInt8.ofNat (4 * x + y / 16)
    if c.val = 61 ∧ d.val = 61 ∧ s = [] then return [first]
    let z ← base64Value c
    let second := UInt8.ofNat (y % 16 * 16 + z / 4)
    if d.val = 61 ∧ s = [] then return [first, second]
    let w ← base64Value d
    let bs ← b64decode s
    return first :: second :: UInt8.ofNat (z % 4 * 64 + w) :: bs
  | _ => none

def isDigit (c : CodePoint) : Bool := 48 ≤ c.val && c.val ≤ 57

def takeDigits : ℕ → PyStr → Option (ℕ × PyStr)
  | 0, s => some (0, s)
  | k + 1, c :: s => do
    if !isDigit c then none
    let (n, t) ← takeDigits k s
    return ((c.val - 48) * 10 ^ k + n, t)
  | _ + 1, [] => none

def isLeap (y : ℕ) : Bool := y % 4 = 0 && (y % 100 ≠ 0 || y % 400 = 0)

def daysInMonth (y m : ℕ) : ℕ :=
  if m = 2 then (if isLeap y then 29 else 28) else if m ∈ [4, 6, 9, 11] then 30 else 31

/-- The weekday of the first of January; Monday is `0`. -/
def firstWeekday (y : ℕ) : ℕ :=
  let d := y - 1
  (365 * d + d / 4 - d / 100 + d / 400) % 7

def weeksInYear (y : ℕ) : ℕ :=
  if firstWeekday y = 3 ∨ (firstWeekday y = 2 ∧ isLeap y) then 53 else 52

/-- Where the date ends: `_find_isoformat_datetime_separator`. -/
def dateLength (s : PyStr) : ℕ :=
  let at_ i := (s[i]?).map Fin.val
  let digitAt i := (s[i]?).any isDigit
  if s.length = 7 then 7
  else if at_ 4 = some 45 then
    if at_ 5 = some 87 then
      if at_ 8 = some 45 then (if digitAt 10 then 8 else 10) else 8
    else 10
  else if at_ 4 = some 87 then
    let run := 7 + ((s.drop 7).takeWhile isDigit).length
    if run < 9 then run else if run % 2 = 0 then 7 else 8
  else 8

/-- `YYYY-MM-DD`, `YYYYMMDD`, `YYYY-Www`, `YYYY-Www-D`, `YYYYWww` or `YYYYWwwD`. -/
def isDate (s : PyStr) : Bool := Option.isSome do
  let (y, t) ← takeDigits 4 s
  guard (0 < y)
  let sep := (t.head?).any (·.val = 45)
  let dash (t : PyStr) : Option PyStr :=
    if sep then (if (t.head?).any (·.val = 45) then some t.tail else none) else some t
  let t ← dash t
  if (t.head?).any (·.val = 87) then
    let (w, t) ← takeDigits 2 t.tail
    guard (1 ≤ w ∧ w ≤ weeksInYear y)
    if t = [] then return ()
    let t ← dash t
    let (d, t) ← takeDigits 1 t
    guard (1 ≤ d ∧ d ≤ 7 ∧ t = [])
  else
    let (m, t) ← takeDigits 2 t
    let t ← dash t
    let (d, t) ← takeDigits 2 t
    guard (1 ≤ m ∧ m ≤ 12 ∧ 1 ≤ d ∧ d ≤ daysInMonth y m ∧ t = [])

/-- `HH`, `HH:MM`, `HH:MM:SS` or `HH:MM:SS.f…`, with or without the colons. -/
def clock (s : PyStr) : Option (ℕ × ℕ × ℕ) := do
  let (h, t) ← takeDigits 2 s
  if t = [] then return (h, 0, 0)
  let sep := (t.head?).any (·.val = 58)
  let (m, t) ← takeDigits 2 (if sep then t.tail else t)
  if t = [] then return (h, m, 0)
  if sep ∧ ¬(t.head?).any (·.val = 58) then none
  let (sec, t) ← takeDigits 2 (if sep then t.tail else t)
  if t = [] then return (h, m, sec)
  guard ((t.head?).any fun c => c.val = 46 || c.val = 44)
  guard (t.tail ≠ [] ∧ t.tail.all isDigit)
  return (h, m, sec)

/-- A time and perhaps an offset; the answer says whether there is one. -/
def isoTime (s : PyStr) : Option Bool := do
  let isZone (c : CodePoint) : Bool := c.val = 43 || c.val = 45 || c.val = 90
  let (h, m, sec) ← clock (s.takeWhile fun c => !isZone c)
  guard (h < 24 ∧ m < 60 ∧ sec < 60)
  match s.dropWhile fun c => !isZone c with
  | [] => return false
  | c :: zone =>
    if c.val = 90 then
      guard (zone = [])
    else
      let (h, m, sec) ← clock zone
      guard (3600 * h + 60 * m + sec < 86400)
    return true

/-- `datetime.fromisoformat(s)` on the documented formats: `none` is its `ValueError`, and otherwise
whether the value has a time zone. What CPython takes beyond these formats is refused. -/
def fromIsoFormat (s : PyStr) : Option Bool := do
  guard (7 ≤ s.length)
  let n := dateLength s
  guard (isDate (s.take n))
  match s.drop n with
  | [] => return false
  | _ :: time => isoTime time

/-- `s.replace("Z", t)`. -/
def replaceZ (s t : PyStr) : PyStr := s.flatMap fun c => if c.val = 90 then t else [c]

end Python
