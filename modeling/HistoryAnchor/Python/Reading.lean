import HistoryAnchor.Python.Encoding
import HistoryAnchor.Python.Formats

/-! # Reading JSON

`json.loads` on a text, and that it reads back what `json.dumps` writes. The value of a
number with a fraction or an exponent is a parameter.
-/

namespace Python.Json

/-- The second value occurs in the first one at the given depth. -/
inductive Part : ℕ → Json → Json → Prop
  | self {v : Json} : Part 0 v v
  | item {d : ℕ} {xs : List Json} {x y : Json} : x ∈ xs → Part d x y → Part (d + 1) (arr xs) y
  | member {d : ℕ} {kvs : List (PyStr × Json)} {kv : PyStr × Json} {y : Json} : kv ∈ kvs →
      Part d kv.2 y → Part (d + 1) (obj kvs) y

theorem induct {P : Json → Prop} (hnull : P null) (hbool : ∀ b, P (bool b)) (hint : ∀ n, P (int n))
    (hfloat : ∀ q, P (float q)) (hstr : ∀ s, P (str s))
    (harr : ∀ xs, (∀ x ∈ xs, P x) → P (arr xs))
    (hobj : ∀ kvs, (∀ kv ∈ kvs, P kv.2) → P (obj kvs)) (v : Json) : P v := by
  refine @Json.rec P (fun xs => ∀ x ∈ xs, P x) (fun kvs => ∀ kv ∈ kvs, P kv.2) (fun kv => P kv.2)
    hnull hbool hint hfloat hstr harr hobj ?_ ?_ ?_ ?_ ?_ v
  · exact fun _ h => absurd h List.not_mem_nil
  · exact fun x xs hx hxs => List.forall_mem_cons.mpr ⟨hx, hxs⟩
  · exact fun _ h => absurd h List.not_mem_nil
  · exact fun kv kvs hkv hkvs => List.forall_mem_cons.mpr ⟨hkv, hkvs⟩
  · exact fun _ _ h => h

def isWhitespace (c : CodePoint) : Bool := c = 0x20 || c = 0x09 || c = 0x0A || c = 0x0D

def skipSpace (s : PyStr) : PyStr := s.dropWhile isWhitespace

def unescapes : List (CodePoint × CodePoint) :=
  [(0x22, 0x22), (0x5C, 0x5C), (0x2F, 0x2F), (0x62, 0x08), (0x66, 0x0C), (0x6E, 0x0A), (0x72, 0x0D),
   (0x74, 0x09)]

def hex4 (a b c d : CodePoint) : Option ℕ := do
  let w ← digitValue a
  let x ← digitValue b
  let y ← digitValue c
  let z ← digitValue d
  return 4096 * w + 256 * x + 16 * y + z

/-- The code unit that an escape `\uXXXX` at the head of the text names. -/
def escapedUnit : PyStr → Option ℕ
  | b :: u :: h₁ :: h₂ :: h₃ :: h₄ :: _ => if b = 0x5C ∧ u = 0x75 then hex4 h₁ h₂ h₃ h₄ else none
  | _ => none

/-- The code point of a surrogate pair, when the text goes on with the second half of one. -/
def pairedWith (n : ℕ) (s : PyStr) : Option CodePoint :=
  match escapedUnit s with
  | some m =>
    if 0xD800 ≤ n ∧ n ≤ 0xDBFF ∧ 0xDC00 ≤ m ∧ m ≤ 0xDFFF then
      some (Fin.ofNat _ (0x10000 + 1024 * (n - 0xD800) + (m - 0xDC00)))
    else none
  | none => none

/-- The character that an escape after its backslash stands for, and the text after it. -/
def scanEscape : PyStr → Option (CodePoint × PyStr)
  | [] => none
  | e :: s =>
    if e = 0x75 then do
      let n ← escapedUnit (0x5C :: e :: s)
      match pairedWith n (s.drop 4) with
      | some c => return (c, s.drop 10)
      | none => return (Fin.ofNat _ n, s.drop 4)
    else (unescapes.lookup e).map fun c => (c, s)

def scanChar : PyStr → Option (CodePoint × PyStr)
  | [] => none
  | c :: s => if c = 0x5C then scanEscape s else if c.val < 0x20 then none else some (c, s)

def scanChars : ℕ → PyStr → Option (PyStr × PyStr)
  | 0, _ => none
  | n + 1, s => do
    if s.head? = some 0x22 then return ([], s.tail)
    let (c, r) ← scanChar s
    let (t, r) ← scanChars n r
    return (c :: t, r)

/-- The rest of a string after its opening quote, and the text after the closing one. -/
def scanString (s : PyStr) : Option (PyStr × PyStr) := scanChars s.length s

/-- `int` of decimal digits. -/
def ofDigits (s : PyStr) : ℕ := s.foldl (fun n c => 10 * n + (c.val - 48)) 0

def scanFraction : PyStr → PyStr × PyStr
  | [] => ([], [])
  | c :: s =>
    if c = 0x2E ∧ s.takeWhile isDigit ≠ [] then (c :: s.takeWhile isDigit, s.dropWhile isDigit)
    else ([], c :: s)

def scanSign (s : PyStr) : PyStr × PyStr :=
  if s.head? = some 0x2B ∨ s.head? = some 0x2D then s.splitAt 1 else ([], s)

def scanExponent : PyStr → PyStr × PyStr
  | [] => ([], [])
  | c :: s =>
    if (c = 0x65 ∨ c = 0x45) ∧ (scanSign s).2.takeWhile isDigit ≠ [] then
      (c :: (scanSign s).1 ++ (scanSign s).2.takeWhile isDigit, (scanSign s).2.dropWhile isDigit)
    else ([], c :: s)

/-- A number without its sign; a long integer raises `ValueError`. -/
def scanMagnitude (readFloat : PyStr → Option ℚ) (sign s : PyStr) : Option (Json × PyStr) :=
  let digits := if s.head? = some 0x30 then [0x30] else s.takeWhile isDigit
  let (fraction, t) := scanFraction (s.drop digits.length)
  let (exponent, r) := scanExponent t
  if digits = [] then none
  else if fraction = [] ∧ exponent = [] then
    if 4300 < digits.length then none
    else some (int (if sign = [] then ofDigits digits else -ofDigits digits), r)
  else some (float (readFloat (sign ++ digits ++ fraction ++ exponent)), r)

def scanNumber (readFloat : PyStr → Option ℚ) (s : PyStr) : Option (Json × PyStr) :=
  if s.head? = some 0x2D then scanMagnitude readFloat [0x2D] s.tail
  else scanMagnitude readFloat [] s

def constants : List (PyStr × Json) :=
  [("null", null), ("true", bool true), ("false", bool false), ("NaN", float none),
   ("Infinity", float none), ("-Infinity", float none)]

def scanAtom (readFloat : PyStr → Option ℚ) (s : PyStr) : Option (Json × PyStr) :=
  match constants.find? fun (name, _) => name.isPrefixOf s with
  | some (name, v) => some (v, s.drop name.length)
  | none => scanNumber readFloat s

/-- `d[k] = x` for a dictionary. -/
def setItem (d : List (PyStr × Json)) (kv : PyStr × Json) : List (PyStr × Json) :=
  if kv.1 ∈ d.map Prod.fst then d.map fun p => if p.1 = kv.1 then kv else p else d ++ [kv]

/-- `dict(pairs)`: the last value of a key stands in its first place. -/
def dictOf (kvs : List (PyStr × Json)) : List (PyStr × Json) := kvs.foldl setItem []

mutual

def scanValue (readFloat : PyStr → Option ℚ) : ℕ → PyStr → Option (Json × PyStr)
  | 0, _ | _, [] => none
  | n + 1, c :: s =>
    if c = 0x22 then (scanString s).map fun (t, r) => (str t, r)
    else if c = 0x5B then
      if (skipSpace s).head? = some 0x5D then some (arr [], (skipSpace s).tail)
      else (scanItems readFloat n (skipSpace s)).map fun (xs, r) => (arr xs, r)
    else if c = 0x7B then
      if (skipSpace s).head? = some 0x7D then some (obj [], (skipSpace s).tail)
      else (scanMembers readFloat n (skipSpace s)).map fun (kvs, r) => (obj (dictOf kvs), r)
    else scanAtom readFloat (c :: s)

def scanItems (readFloat : PyStr → Option ℚ) : ℕ → PyStr → Option (List Json × PyStr)
  | 0, _ => none
  | n + 1, s => do
    let (x, r) ← scanValue readFloat n s
    match skipSpace r with
    | [] => none
    | c :: t =>
      if c = 0x5D then return ([x], t)
      if c = 0x2C then
        let (xs, r) ← scanItems readFloat n (skipSpace t)
        return (x :: xs, r)
      none

def scanMembers (readFloat : PyStr → Option ℚ) : ℕ → PyStr → Option (List (PyStr × Json) × PyStr)
  | 0, _ => none
  | n + 1, s => do
    if s.head? ≠ some 0x22 then none
    let (k, r) ← scanString s.tail
    if (skipSpace r).head? ≠ some 0x3A then none
    let (x, r) ← scanValue readFloat n (skipSpace (skipSpace r).tail)
    match skipSpace r with
    | [] => none
    | c :: t =>
      if c = 0x7D then return ([(k, x)], t)
      if c = 0x2C then
        let (kvs, r) ← scanMembers readFloat n (skipSpace t)
        return ((k, x) :: kvs, r)
      none

end

/-- `json.loads`; `none` is its `ValueError`. Every step of a scan takes a character or is followed
by one that does. -/
def loads (readFloat : PyStr → Option ℚ) (s : PyStr) : Option Json := do
  let (v, r) ← scanValue readFloat (2 * s.length + 2) (skipSpace s)
  if skipSpace r = [] then return v
  none

def Closes (r : PyStr) : Prop := ∀ c ∈ r.head?, c = 0x2C ∨ c = 0x5D ∨ c = 0x7D

theorem closes_cons {c : CodePoint} {r : PyStr} (h : c = 0x2C ∨ c = 0x5D ∨ c = 0x7D) :
    Closes (c :: r) := by
  intro d hd
  obtain rfl : c = d := by simpa using hd
  exact h

theorem closes_items (xs : List Json) (r : PyStr) : Closes (dumpItems xs ++ r) := by
  obtain ⟨c, t, h, hc⟩ := dumpItems_head xs
  rw [h]
  exact closes_cons (hc.elim (fun hc => .inr (.inl hc.1)) fun hc => .inl hc.1)

theorem closes_members (kvs : List (PyStr × Json)) (r : PyStr) :
    Closes (dumpMembers kvs ++ r) := by
  obtain ⟨c, t, h, hc⟩ := dumpMembers_head kvs
  rw [h]
  exact closes_cons (hc.elim (fun hc => .inr (.inr hc.1)) fun hc => .inl hc.1)

theorem isDigit_of_mem_decimal {n : ℕ} {c : CodePoint} (h : c ∈ decimal n) : isDigit c = true := by
  have hc := digit_of_mem_decimal h
  simpa [isDigit] using hc

theorem ofDigits_decimal (n : ℕ) : ofDigits (decimal n) = n := by
  have hfold : ∀ (cs : List Char) (k : ℕ), (∀ c ∈ cs, c.isDigit = true) →
      (cs.map fun c => (Fin.ofNat 0x110000 c.toNat : CodePoint)).foldl
        (fun n c => 10 * n + (c.val - 48)) k = Nat.ofDigitChars 10 cs k := by
    intro cs
    induction cs with
    | nil => exact fun _ _ => rfl
    | cons c cs ih =>
      intro k hcs
      rw [List.forall_mem_cons] at hcs
      have hdig := hcs.1
      simp only [Char.isDigit, Bool.and_eq_true, decide_eq_true_eq, ge_iff_le] at hdig
      have hlt : c.toNat ≤ 57 := hdig.2
      have hval : (Fin.ofNat 0x110000 c.toNat).val = c.toNat := Nat.mod_eq_of_lt (by omega)
      rw [List.map_cons, List.foldl_cons, ih _ hcs.2, hval]
      rfl
  rw [ofDigits, decimal, hfold _ _ fun c hc => Nat.isDigit_of_mem_toDigits (by omega) (by omega) hc,
    Nat.ofDigitChars_ten_toDigits]

theorem decimal_zero_of_head {n : ℕ} (h : (decimal n).head? = some 0x30) :
    decimal n = [0x30] := by
  induction n using Nat.strongRecOn with
  | ind n ih =>
    rcases Nat.lt_or_ge n 10 with hn | hn
    · have hd : decimal n = [Fin.ofNat _ n.digitChar.toNat] := by
        rw [decimal, Nat.toDigits_of_lt_base hn]
        rfl
      rw [hd] at h ⊢
      rw [Option.some.inj h]
    · have hd : decimal n = decimal (n / 10) ++ [Fin.ofNat _ (n % 10).digitChar.toNat] := by
        rw [decimal, Nat.toDigits_of_base_le (by omega) hn, List.map_append]
        rfl
      have hhead : (decimal (n / 10)).head? = some 0x30 := by
        rw [hd, List.head?_append_of_ne_nil _ (decimal_ne_nil _)] at h
        exact h
      have hzero : n / 10 = 0 := by
        have := ofDigits_decimal (n / 10)
        rw [ih _ (by omega) hhead] at this
        exact this.symm
      omega

theorem not_isDigit_of_closes {r : PyStr} (h : Closes r) : r.takeWhile isDigit = [] := by
  cases r with
  | nil => rfl
  | cons c r =>
    rcases h c rfl with rfl | rfl | rfl <;> rfl

theorem scanFraction_of_closes {r : PyStr} (h : Closes r) : scanFraction r = ([], r) := by
  cases r with
  | nil => rfl
  | cons c r =>
    have hc : c ≠ 0x2E := by rcases h c rfl with rfl | rfl | rfl <;> decide
    rw [scanFraction, if_neg fun he => hc he.1]

theorem scanExponent_of_closes {r : PyStr} (h : Closes r) : scanExponent r = ([], r) := by
  cases r with
  | nil => rfl
  | cons c r =>
    have hc : ¬(c = 0x65 ∨ c = 0x45) := by rcases h c rfl with rfl | rfl | rfl <;> decide
    rw [scanExponent, if_neg fun he => hc he.1]

variable {readFloat : PyStr → Option ℚ}

theorem scanMagnitude_decimal {n : ℕ} {sign r : PyStr} (hn : (decimal n).length ≤ 4300)
    (hr : Closes r) : scanMagnitude readFloat sign (decimal n ++ r) =
      some (int (if sign = [] then n else -n), r) := by
  have hdigits : (if (decimal n ++ r).head? = some 0x30 then [0x30]
      else (decimal n ++ r).takeWhile isDigit) = decimal n := by
    rw [List.head?_append_of_ne_nil _ (decimal_ne_nil n)]
    split_ifs with h
    · exact (decimal_zero_of_head h).symm
    · rw [List.takeWhile_append_of_pos fun c hc => isDigit_of_mem_decimal hc,
        not_isDigit_of_closes hr, List.append_nil]
  simp only [scanMagnitude, hdigits, List.drop_left, scanFraction_of_closes hr,
    scanExponent_of_closes hr, ofDigits_decimal, decimal_ne_nil, and_self, if_true, if_false,
    if_neg (Nat.not_lt.mpr hn)]

theorem head_decimal {n : ℕ} {r : PyStr} {c : CodePoint} (h : (decimal n ++ r).head? = some c) :
    48 ≤ c.val ∧ c.val ≤ 57 := by
  rw [List.head?_append_of_ne_nil _ (decimal_ne_nil n)] at h
  exact digit_of_mem_decimal (List.mem_of_mem_head? h)

theorem scanNumber_decimalInt {n : ℤ} {r : PyStr} (hn : (decimal n.natAbs).length ≤ 4300)
    (hr : Closes r) : scanNumber readFloat (decimalInt n ++ r) = some (int n, r) := by
  cases n with
  | ofNat i =>
    have hhead : ¬((decimal i ++ r).head? = some 0x2D) := fun h =>
      absurd (head_decimal h) (by decide)
    rw [decimalInt, scanNumber, if_neg hhead]
    exact scanMagnitude_decimal hn hr
  | negSucc i =>
    have htext : decimalInt (.negSucc i) ++ r = 0x2D :: (decimal (i + 1) ++ r) := rfl
    rw [htext, scanNumber, List.head?_cons, if_pos rfl, List.tail_cons]
    exact scanMagnitude_decimal hn hr

theorem unescapes_shortEscapes :
    ∀ p ∈ shortEscapes, p.2 ≠ 0x75 ∧ unescapes.lookup p.2 = some p.1 := by decide

theorem pairedWith_of_lt {n : ℕ} {s : PyStr} (hn : n < 0xD800) : pairedWith n s = none := by
  unfold pairedWith
  split
  · exact if_neg fun h => absurd h.1 (Nat.not_le.mpr hn)
  · rfl

theorem scanChar_escape (c : CodePoint) (r : PyStr) : scanChar (escape c ++ r) = some (c, r) := by
  unfold escape
  cases hc : shortEscapes.lookup c with
  | some e =>
    obtain ⟨hne, hlookup⟩ := unescapes_shortEscapes _ (mem_of_lookup hc)
    simp only [List.cons_append, List.nil_append, scanChar, scanEscape]
    rw [if_true, if_neg hne, hlookup]
    rfl
  | none =>
    obtain ⟨hquote, hback⟩ := ne_of_lookup_eq_none hc
    dsimp only
    split_ifs with hlt
    · have hhex : hex4 0x30 0x30 (hexDigit (c.val / 16)) (hexDigit (c.val % 16)) = some c.val := by
        rw [hex4, digitValue_hexDigit _ (by omega), digitValue_hexDigit _ (by omega)]
        simp only [show digitValue 0x30 = some 0 from rfl, Option.bind_eq_bind, Option.bind_some,
          Option.pure_def]
        congr 1
        omega
      have hself : (Fin.ofNat _ c.val : CodePoint) = c := Fin.ext (Nat.mod_eq_of_lt c.isLt)
      simp only [List.cons_append, List.nil_append, scanChar, scanEscape, escapedUnit, and_self,
        if_true, hhex, Option.bind_eq_bind, Option.bind_some, pairedWith_of_lt (n := c.val) (by omega),
        List.drop_succ_cons, List.drop_zero, hself, Option.pure_def]
    · rw [List.singleton_append, scanChar, if_neg hback, if_neg hlt]

theorem head_escape_ne {c : CodePoint} {r : PyStr} : (escape c ++ r).head? ≠ some 0x22 := by
  intro h
  cases hs : escape c ++ r with
  | nil => rw [hs] at h; cases h
  | cons d t =>
    rw [hs] at h
    obtain rfl := Option.some.inj h
    exact escape_cons_ne hs

theorem scanChars_escape {s r : PyStr} {n : ℕ} (hn : s.length < n) :
    scanChars n (s.flatMap escape ++ 0x22 :: r) = some (s, r) := by
  induction s generalizing n with
  | nil =>
    obtain ⟨m, rfl⟩ := Nat.exists_eq_add_of_lt hn
    rfl
  | cons c s ih =>
    cases n with
    | zero => exact absurd hn (Nat.not_lt_zero _)
    | succ n =>
      rw [List.flatMap_cons, List.append_assoc, scanChars, if_neg head_escape_ne, scanChar_escape]
      simp only [Option.bind_eq_bind, Option.bind_some, ih (Nat.lt_of_succ_lt_succ hn),
        Option.pure_def]

theorem length_flatMap_escape (s : PyStr) : s.length ≤ (s.flatMap escape).length := by
  induction s with
  | nil => exact Nat.zero_le _
  | cons c s ih =>
    have hc : 0 < (escape c).length := by
      unfold escape
      split
      · exact Nat.succ_pos _
      · split_ifs <;> exact Nat.succ_pos _
    rw [List.flatMap_cons, List.length_append, List.length_cons]
    omega

theorem scanString_quote (s r : PyStr) :
    scanString (s.flatMap escape ++ 0x22 :: r) = some (s, r) := by
  have hlen := length_flatMap_escape s
  apply scanChars_escape
  rw [List.length_append, List.length_cons]
  omega

theorem dictOf_of_nodup {kvs : List (PyStr × Json)} (h : (kvs.map Prod.fst).Nodup) :
    dictOf kvs = kvs := by
  have hfold : ∀ (ms d : List (PyStr × Json)), ((d ++ ms).map Prod.fst).Nodup →
      ms.foldl setItem d = d ++ ms := by
    intro ms
    induction ms with
    | nil => exact fun d _ => (List.append_nil d).symm
    | cons kv ms ih =>
      intro d hd
      have hnot : kv.1 ∉ d.map Prod.fst := by
        rw [List.map_append, List.nodup_append] at hd
        exact fun hm => hd.2.2 _ hm _ (List.mem_map_of_mem List.mem_cons_self) rfl
      rw [List.append_cons] at hd
      rw [List.foldl_cons, setItem, if_neg hnot, ih _ hd, List.append_assoc, List.singleton_append]
  exact hfold kvs [] h

/-- What `json.loads` reads back: no float, no key twice, no integer too long for it. -/
def Readable : Json → Prop
  | float _ => False
  | int n => (decimal n.natAbs).length ≤ 4300
  | obj kvs => (kvs.map Prod.fst).Nodup
  | _ => True

theorem dump_first {v : Json} (h : v.Readable) :
    ∃ c t, v.dump = c :: t ∧ isWhitespace c = false ∧ c ≠ 0x5D := by
  match v with
  | null => exact ⟨0x6E, _, rfl, rfl, by decide⟩
  | bool true => exact ⟨0x74, _, rfl, rfl, by decide⟩
  | bool false => exact ⟨0x66, _, rfl, rfl, by decide⟩
  | int (.negSucc n) => exact ⟨0x2D, _, rfl, rfl, by decide⟩
  | int (.ofNat n) =>
    obtain ⟨c, t, ht⟩ := List.exists_cons_of_ne_nil (decimal_ne_nil n)
    have hc := digit_of_mem_decimal (n := n) (c := c) (by rw [ht]; exact List.mem_cons_self)
    refine ⟨c, t, ht, ?_, ?_⟩
    · simp only [isWhitespace, Bool.or_eq_false_iff, decide_eq_false_iff_not]
      refine ⟨⟨⟨?_, ?_⟩, ?_⟩, ?_⟩ <;> rintro rfl <;> exact absurd hc (by decide)
    · rintro rfl
      exact absurd hc (by decide)
  | float q => exact h.elim
  | str s => exact ⟨0x22, _, rfl, rfl, by decide⟩
  | arr [] => exact ⟨0x5B, _, rfl, rfl, by decide⟩
  | arr (x :: xs) => exact ⟨0x5B, _, rfl, rfl, by decide⟩
  | obj [] => exact ⟨0x7B, _, rfl, rfl, by decide⟩
  | obj ((k, x) :: kvs) => exact ⟨0x7B, _, rfl, rfl, by decide⟩

theorem skipSpace_cons {c : CodePoint} {s : PyStr} (h : isWhitespace c = false) :
    skipSpace (c :: s) = c :: s := by
  rw [skipSpace, List.dropWhile_cons, h]
  rfl

theorem skipSpace_dump {v : Json} (h : v.Readable) (r : PyStr) :
    skipSpace (v.dump ++ r) = v.dump ++ r := by
  obtain ⟨c, t, ht, hc, -⟩ := dump_first h
  rw [ht, List.cons_append, skipSpace_cons hc]

theorem length_dump_pos {v : Json} (h : v.Readable) : 0 < v.dump.length := by
  obtain ⟨c, t, ht, -⟩ := dump_first h
  rw [ht]
  exact Nat.succ_pos _

def ReadsBack (readFloat : PyStr → Option ℚ) (v : Json) : Prop :=
  ∀ (n : ℕ) (r : PyStr), 2 * v.dump.length ≤ n → Closes r →
    scanValue readFloat n (v.dump ++ r) = some (v, r)

theorem scanItems_dump {xs : List Json} {x : Json} (hx : x.Readable)
    (hxs : ∀ y ∈ xs, y.Readable) (hreads : ∀ y ∈ x :: xs, ReadsBack readFloat y) {n : ℕ} {r : PyStr}
    (hn : 2 * (x.dump.length + (dumpItems xs).length) ≤ n) :
    scanItems readFloat n (x.dump ++ (dumpItems xs ++ r)) = some (x :: xs, r) := by
  induction xs generalizing x n with
  | nil =>
    obtain ⟨m, rfl⟩ : ∃ m, n = m + 1 := ⟨n - 1, by have := length_dump_pos hx; omega⟩
    have hlen : (dumpItems []).length = 1 := rfl
    rw [scanItems, hreads x List.mem_cons_self m _ (by omega) (closes_items _ _)]
    rfl
  | cons y ys ih =>
    obtain ⟨m, rfl⟩ : ∃ m, n = m + 1 := ⟨n - 1, by have := length_dump_pos hx; omega⟩
    rw [List.forall_mem_cons] at hxs
    have hlen : (dumpItems (y :: ys)).length = 1 + (y.dump.length + (dumpItems ys).length) := by
      rw [dumpItems, List.length_cons, List.length_append]
      omega
    have hrest : skipSpace (dumpItems (y :: ys) ++ r) =
        0x2C :: (y.dump ++ (dumpItems ys ++ r)) := by
      rw [dumpItems, List.cons_append, List.append_assoc]
      exact skipSpace_cons rfl
    rw [scanItems, hreads x List.mem_cons_self m _ (by omega) (closes_items _ _)]
    simp only [Option.bind_eq_bind, Option.bind_some, hrest, skipSpace_dump hxs.1]
    rw [if_neg (by decide), if_pos trivial, ih hxs.1 hxs.2
      (fun z hz => hreads z (List.mem_cons_of_mem _ hz)) (by omega)]
    rfl

theorem quote_append_eq (k r : PyStr) :
    quote k ++ r = 0x22 :: (k.flatMap escape ++ 0x22 :: r) := by
  rw [quote, List.cons_append, List.cons_append, List.append_assoc, List.singleton_append]

theorem scanMembers_dump {kvs : List (PyStr × Json)} {k : PyStr} {x : Json} (hx : x.Readable)
    (hkvs : ∀ kv ∈ kvs, kv.2.Readable) (hreads : ∀ kv ∈ (k, x) :: kvs, ReadsBack readFloat kv.2)
    {n : ℕ} {r : PyStr}
    (hn : 2 * ((quote k).length + x.dump.length + (dumpMembers kvs).length) ≤ n) :
    scanMembers readFloat n (quote k ++ 0x3A :: (x.dump ++ (dumpMembers kvs ++ r))) =
      some ((k, x) :: kvs, r) := by
  induction kvs generalizing k x n with
  | nil =>
    obtain ⟨m, rfl⟩ : ∃ m, n = m + 1 := ⟨n - 1, by have := length_dump_pos hx; omega⟩
    have hlen : (dumpMembers []).length = 1 := rfl
    have hx' := hreads (k, x) List.mem_cons_self m (dumpMembers [] ++ r)
      (by dsimp only; omega) (closes_members _ _)
    rw [scanMembers, quote_append_eq, List.head?_cons, List.tail_cons, scanString_quote]
    simp only [ne_eq, not_true, if_false, Option.bind_eq_bind, Option.bind_some,
      skipSpace_cons (show isWhitespace 0x3A = false from rfl), List.head?_cons, List.tail_cons,
      skipSpace_dump hx, hx']
    rfl
  | cons lw kvs ih =>
    obtain ⟨l, w⟩ := lw
    obtain ⟨m, rfl⟩ : ∃ m, n = m + 1 := ⟨n - 1, by have := length_dump_pos hx; omega⟩
    rw [List.forall_mem_cons] at hkvs
    have hw : w.Readable := hkvs.1
    have hlen : (dumpMembers ((l, w) :: kvs)).length =
        2 + ((quote l).length + w.dump.length + (dumpMembers kvs).length) := by
      rw [dumpMembers, List.length_cons, List.length_append, List.length_cons, List.length_append]
      omega
    have hrest : skipSpace (dumpMembers ((l, w) :: kvs) ++ r) =
        0x2C :: (quote l ++ 0x3A :: (w.dump ++ (dumpMembers kvs ++ r))) := by
      rw [dumpMembers, List.cons_append, List.append_assoc, List.cons_append, List.append_assoc]
      exact skipSpace_cons rfl
    have hquote : skipSpace (quote l ++ 0x3A :: (w.dump ++ (dumpMembers kvs ++ r))) =
        quote l ++ 0x3A :: (w.dump ++ (dumpMembers kvs ++ r)) := skipSpace_cons rfl
    have hx' := hreads (k, x) List.mem_cons_self m (dumpMembers ((l, w) :: kvs) ++ r)
      (by dsimp only; omega) (closes_members _ _)
    rw [scanMembers, quote_append_eq, List.head?_cons, List.tail_cons, scanString_quote]
    simp only [ne_eq, not_true, if_false, Option.bind_eq_bind, Option.bind_some,
      skipSpace_cons (show isWhitespace 0x3A = false from rfl), List.head?_cons, List.tail_cons,
      skipSpace_dump hx, hx', hrest, hquote]
    rw [if_neg (by decide), if_pos trivial, ih hw hkvs.2
      (fun z hz => hreads z (List.mem_cons_of_mem _ hz)) (by omega)]
    rfl

theorem constants_first : ∀ p ∈ constants, p.1 ≠ [] ∧ p.1.head?.all (!isDigit ·) = true ∧
    (p.1.head? = some 0x2D → p.1.tail ≠ [] ∧ p.1.tail.head?.all (!isDigit ·) = true) := by
  decide

theorem append_ne_decimal {s t r : PyStr} {i : ℕ} (hs : s ≠ [])
    (h : s.head?.all (!isDigit ·) = true) : s ++ t ≠ decimal i ++ r := by
  intro he
  cases s with
  | nil => exact hs rfl
  | cons c s =>
    have hc := head_decimal (congrArg List.head? he.symm)
    have hdigit : isDigit c = true := by simpa [isDigit] using hc
    rw [List.head?_cons, Option.all_some, hdigit] at h
    cases h

theorem scanAtom_decimalInt {n : ℤ} {r : PyStr} :
    scanAtom readFloat (decimalInt n ++ r) = scanNumber readFloat (decimalInt n ++ r) := by
  have hfind : constants.find? (fun (name, _) => name.isPrefixOf (decimalInt n ++ r)) = none := by
    rw [List.find?_eq_none]
    intro p hp hpre
    obtain ⟨hne, hfirst, hminus⟩ := constants_first p hp
    obtain ⟨t, ht⟩ := List.isPrefixOf_iff_prefix.mp hpre
    cases n with
    | ofNat i => exact append_ne_decimal hne hfirst ht
    | negSucc i =>
      obtain ⟨c, cs, hcs⟩ := List.exists_cons_of_ne_nil hne
      rw [hcs] at ht hminus
      have htext : c :: (cs ++ t) = 0x2D :: (decimal (i + 1) ++ r) := ht
      obtain ⟨hc, htail⟩ := List.cons.inj htext
      obtain ⟨hne', hfirst'⟩ := hminus (congrArg some hc)
      exact append_ne_decimal hne' hfirst' htail
  rw [scanAtom, hfind]

theorem scanValue_int {n : ℤ} {m : ℕ} {r : PyStr} :
    scanValue readFloat (m + 1) (decimalInt n ++ r) = scanAtom readFloat (decimalInt n ++ r) := by
  obtain ⟨c, t, hc, h₁, h₂, h₃⟩ :
      ∃ c t, decimalInt n = c :: t ∧ c ≠ 0x22 ∧ c ≠ 0x5B ∧ c ≠ 0x7B := by
    cases n with
    | ofNat i =>
      obtain ⟨c, t, ht⟩ := List.exists_cons_of_ne_nil (decimal_ne_nil i)
      have hc := digit_of_mem_decimal (n := i) (c := c) (by rw [ht]; exact List.mem_cons_self)
      refine ⟨c, t, ht, ?_, ?_, ?_⟩ <;> rintro rfl <;> exact absurd hc (by decide)
    | negSucc i => exact ⟨0x2D, _, rfl, by decide, by decide, by decide⟩
  rw [hc, List.cons_append, scanValue, if_neg h₁, if_neg h₂, if_neg h₃]

theorem readsBack_of_succ {v : Json} (hv : v.Readable)
    (h : ∀ (m : ℕ) (r : PyStr), 2 * v.dump.length ≤ m + 1 → Closes r →
      scanValue readFloat (m + 1) (v.dump ++ r) = some (v, r)) : ReadsBack readFloat v := by
  intro n r hn hr
  have hpos := length_dump_pos hv
  obtain ⟨m, rfl⟩ : ∃ m, n = m + 1 := ⟨n - 1, by omega⟩
  exact h m r hn hr

/-- A value without floats, repeated keys and very long integers is read back from its text. -/
theorem readsBack (v : Json) (h : ∀ d x, Part d v x → x.Readable) : ReadsBack readFloat v := by
  induction v using induct with
  | hnull => exact readsBack_of_succ trivial fun m r _ _ => rfl
  | hbool b => exact readsBack_of_succ trivial fun m r _ _ => by cases b <;> rfl
  | hint i =>
    refine readsBack_of_succ (h 0 _ .self) fun m r _ hr => ?_
    rw [dump, scanValue_int, scanAtom_decimalInt]
    exact scanNumber_decimalInt (h 0 _ .self) hr
  | hfloat q => exact (h 0 _ .self).elim
  | hstr s =>
    refine readsBack_of_succ trivial fun m r _ _ => ?_
    rw [dump, quote_append_eq, scanValue, if_pos rfl, scanString_quote]
    rfl
  | harr xs ih =>
    have hitems : ∀ x ∈ xs, x.Readable := fun x hx => h 1 x (.item hx .self)
    have hreads : ∀ x ∈ xs, ReadsBack readFloat x := fun x hx =>
      ih x hx fun d y hy => h (d + 1) y (.item hx hy)
    refine readsBack_of_succ trivial fun m r hm _ => ?_
    cases xs with
    | nil => rfl
    | cons x xs =>
      rw [List.forall_mem_cons] at hitems
      obtain ⟨c, t, hc, -, hne⟩ := dump_first hitems.1
      have hhead : (x.dump ++ (dumpItems xs ++ r)).head? ≠ some 0x5D := by
        rw [hc]
        exact fun he => hne (Option.some.inj he)
      have hlen : (arr (x :: xs)).dump.length = 1 + (x.dump.length + (dumpItems xs).length) := by
        rw [dump, List.length_cons, List.length_append]
        omega
      rw [dump, List.cons_append, List.append_assoc, scanValue, if_neg (by decide), if_pos rfl,
        skipSpace_dump hitems.1, if_neg hhead, scanItems_dump hitems.1 hitems.2 hreads (by omega)]
      rfl
  | hobj kvs ih =>
    have hmembers : ∀ kv ∈ kvs, kv.2.Readable := fun kv hkv => h 1 kv.2 (.member hkv .self)
    have hreads : ∀ kv ∈ kvs, ReadsBack readFloat kv.2 := fun kv hkv =>
      ih kv hkv fun d y hy => h (d + 1) y (.member hkv hy)
    have hkeys : (kvs.map Prod.fst).Nodup := h 0 _ .self
    refine readsBack_of_succ hkeys fun m r hm _ => ?_
    cases kvs with
    | nil => rfl
    | cons kv kvs =>
      obtain ⟨k, x⟩ := kv
      rw [List.forall_mem_cons] at hmembers
      have hx : x.Readable := hmembers.1
      have hlen : (obj ((k, x) :: kvs)).dump.length =
          2 + ((quote k).length + x.dump.length + (dumpMembers kvs).length) := by
        rw [dump, List.length_cons, List.length_append, List.length_cons, List.length_append]
        omega
      have hskip : skipSpace (quote k ++ 0x3A :: (x.dump ++ (dumpMembers kvs ++ r))) =
          quote k ++ 0x3A :: (x.dump ++ (dumpMembers kvs ++ r)) := skipSpace_cons rfl
      have hhead : (quote k ++ 0x3A :: (x.dump ++ (dumpMembers kvs ++ r))).head? ≠ some 0x7D :=
        fun he => absurd (Option.some.inj he) (by decide)
      rw [dump, List.cons_append, List.append_assoc, List.cons_append, List.append_assoc, scanValue,
        if_neg (by decide), if_neg (by decide), if_pos rfl, hskip, if_neg hhead,
        scanMembers_dump hx hmembers.2 hreads (by omega), Option.map_some]
      dsimp only
      rw [dictOf_of_nodup hkeys]

theorem loads_dump {v : Json} (h : ∀ d x, Part d v x → x.Readable) :
    loads readFloat v.dump = some v := by
  have hread := @readsBack readFloat v h (2 * v.dump.length + 2) [] (by omega) nofun
  rw [List.append_nil] at hread
  have hskip := skipSpace_dump (h 0 v .self) []
  rw [List.append_nil] at hskip
  rw [loads, hskip, hread]
  rfl

end Python.Json
