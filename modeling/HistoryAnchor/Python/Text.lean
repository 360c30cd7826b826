import Mathlib.Data.List.Basic
import Mathlib.Data.Nat.Notation
import Mathlib.Data.UInt

/-! # Python strings and bytes

A `str` is a list of code points, lone surrogates included, and `bytes` is a list
of octets. The codecs that the protocol uses are UTF-8, which rejects
surrogates, and hexadecimal, which `bytes.fromhex` reads leniently and
`bytes.hex` writes in lower case.
-/

namespace Python

abbrev CodePoint := Fin 0x110000
abbrev PyStr := List CodePoint
abbrev Bytes := List UInt8

instance neZero_codePoint : NeZero 0x110000 := ⟨by decide⟩

instance lawfulBEq_pyStr : LawfulBEq PyStr := inferInstance

def ascii (s : String) : PyStr := s.toByteArray.data.toList.map fun b => Fin.ofNat _ b.toNat

instance : Coe String PyStr := ⟨ascii⟩

/-- The characters that `str.strip` removes. -/
def isSpace (c : CodePoint) : Bool :=
  let n := c.val
  (0x09 ≤ n && n ≤ 0x0D) || (0x1C ≤ n && n ≤ 0x20) || n = 0x85 || n = 0xA0 || n = 0x1680 ||
    (0x2000 ≤ n && n ≤ 0x200A) || n = 0x2028 || n = 0x2029 || n = 0x202F || n = 0x205F ||
    n = 0x3000

def strip (s : PyStr) : PyStr := ((s.dropWhile isSpace).reverse.dropWhile isSpace).reverse

/-- `int.__str__` of a natural number. -/
def decimal (n : ℕ) : PyStr := (Nat.toDigits 10 n).map fun c => Fin.ofNat _ c.toNat

def decimalInt : ℤ → PyStr
  | .ofNat n => decimal n
  | .negSucc n => "-" ++ decimal (n + 1)

def hexDigit (n : ℕ) : CodePoint := Fin.ofNat _ (if n < 10 then 48 + n else 87 + n)

/-- `bytes.hex`. -/
def hex (bs : Bytes) : PyStr :=
  bs.flatMap fun b => [hexDigit (b.toNat / 16), hexDigit (b.toNat % 16)]

def digitValue (c : CodePoint) : Option ℕ :=
  let n := c.val
  if 48 ≤ n ∧ n ≤ 57 then some (n - 48)
  else if 97 ≤ n ∧ n ≤ 102 then some (n - 87)
  else if 65 ≤ n ∧ n ≤ 70 then some (n - 55)
  else none

/-- `Py_ISSPACE`: the spaces that `bytes.fromhex` skips between two bytes. -/
def isAsciiSpace (c : CodePoint) : Bool := (0x09 ≤ c.val && c.val ≤ 0x0D) || c.val = 0x20

/-- `bytes.fromhex`; `none` is its `ValueError`. -/
def fromHex : PyStr → Option Bytes
  | [] => some []
  | [c] => if isAsciiSpace c then some [] else none
  | c :: d :: s =>
    if isAsciiSpace c then fromHex (d :: s)
    else do
      let hi ← digitValue c
      let lo ← digitValue d
      let bs ← fromHex s
      return UInt8.ofNat (16 * hi + lo) :: bs

theorem digitValue_hexDigit : ∀ n < 16, digitValue (hexDigit n) = some n := by decide

theorem not_isAsciiSpace_hexDigit : ∀ n < 16, isAsciiSpace (hexDigit n) = false := by decide

@[simp] theorem fromHex_hex (bs : Bytes) : fromHex (hex bs) = some bs := by
  induction bs with
  | nil => rfl
  | cons b bs ih =>
    have hb := b.toNat_lt
    have hhi : b.toNat / 16 < 16 := by omega
    have hlo : b.toNat % 16 < 16 := by omega
    have hsplit : 16 * (b.toNat / 16) + b.toNat % 16 = b.toNat := by omega
    have hcons : hex (b :: bs) =
      hexDigit (b.toNat / 16) :: hexDigit (b.toNat % 16) :: hex bs := rfl
    rw [hcons, fromHex, not_isAsciiSpace_hexDigit _ hhi, digitValue_hexDigit _ hhi,
      digitValue_hexDigit _ hlo, ih]
    simp only [Bool.false_eq_true, if_false, Option.bind_eq_bind, Option.bind_some,
      Option.pure_def, hsplit, UInt8.ofNat_toNat]

theorem hex_injective : Function.Injective hex := fun a b h => by
  simpa using congrArg fromHex h

theorem length_hex (bs : Bytes) : (hex bs).length = 2 * bs.length := by
  induction bs with
  | nil => rfl
  | cons b bs ih =>
    rw [hex, List.flatMap_cons, List.length_append, ← hex, ih, List.length_cons]
    simp only [List.length_cons, List.length_nil]
    omega

theorem length_fromHex {s : PyStr} {bs : Bytes} (h : fromHex s = some bs) :
    2 * bs.length ≤ s.length := by
  induction s using fromHex.induct generalizing bs with
  | case1 =>
    obtain rfl : [] = bs := by simpa [fromHex] using h
    simp
  | case2 c hc =>
    obtain rfl : [] = bs := by simpa [fromHex, hc] using h
    simp
  | case3 c hc => simp [fromHex, hc] at h
  | case4 c d s hc ih =>
    rw [fromHex, if_pos hc] at h
    have := ih h
    simp only [List.length_cons] at this ⊢
    omega
  | case5 c d s hc ih =>
    rw [fromHex, if_neg hc] at h
    simp only [Option.bind_eq_bind, Option.bind_eq_some_iff, Option.pure_def,
      Option.some.injEq] at h
    obtain ⟨hi, -, lo, -, bs', hbs, rfl⟩ := h
    have := ih hbs
    simp only [List.length_cons] at this ⊢
    omega

theorem not_isAsciiSpace_of_digitValue {c : CodePoint} (h : digitValue c ≠ none) :
    isAsciiSpace c = false := by
  unfold digitValue at h
  simp only [isAsciiSpace, Bool.or_eq_false_iff, Bool.and_eq_false_iff, decide_eq_false_iff_not]
  dsimp only at h
  split_ifs at h
  iterate 3 omega
  exact absurd rfl h

theorem exists_fromHex {s : PyStr} {n : ℕ} (hl : s.length = 2 * n)
    (hd : ∀ c ∈ s, digitValue c ≠ none) : ∃ bs, fromHex s = some bs ∧ bs.length = n := by
  induction n generalizing s with
  | zero =>
    obtain rfl := List.length_eq_zero_iff.mp hl
    exact ⟨[], rfl, rfl⟩
  | succ n ih =>
    obtain ⟨c, s, rfl⟩ := List.exists_cons_of_length_pos (by omega : 0 < s.length)
    rw [List.length_cons] at hl
    obtain ⟨d, s, rfl⟩ := List.exists_cons_of_length_pos (by omega : 0 < s.length)
    rw [List.length_cons] at hl
    simp only [List.mem_cons, forall_eq_or_imp] at hd
    obtain ⟨hi, hhi⟩ := Option.ne_none_iff_exists'.mp hd.1
    obtain ⟨lo, hlo⟩ := Option.ne_none_iff_exists'.mp hd.2.1
    obtain ⟨bs, hbs, hlen⟩ := ih (by omega) hd.2.2
    refine ⟨UInt8.ofNat (16 * hi + lo) :: bs, ?_, by rw [List.length_cons, hlen]⟩
    simp only [fromHex, not_isAsciiSpace_of_digitValue hd.1, hhi, hlo, hbs]
    rfl
/-- `str.lower` on ASCII. -/
def lower (s : PyStr) : PyStr :=
  s.map fun c => if 65 ≤ c.val ∧ c.val ≤ 90 then Fin.ofNat _ (c.val + 32) else c

theorem lower_digit {c : CodePoint} {n : ℕ} (h : digitValue c = some n) :
    (if 65 ≤ c.val ∧ c.val ≤ 90 then Fin.ofNat _ (c.val + 32) else c) = hexDigit n ∧ n < 16 := by
  obtain ⟨v, hv⟩ := c
  simp only [digitValue] at h
  split_ifs at h with h₁ h₂ h₃ <;> obtain rfl := Option.some.inj h <;>
    refine ⟨Fin.ext ?_, by omega⟩ <;> simp only [hexDigit, Fin.ofNat] <;> split_ifs <;> simp <;> omega

/-- Two digits a byte in any case are in lower case those of `bytes.hex`. -/
theorem lower_eq_hex {s : PyStr} {bs : Bytes} (h : fromHex s = some bs)
    (hl : s.length = 2 * bs.length) : lower s = hex bs := by
  induction s using fromHex.induct generalizing bs with
  | case1 =>
    obtain rfl : [] = bs := by simpa [fromHex] using h
    rfl
  | case2 c hc =>
    obtain rfl : [] = bs := by simpa [fromHex, hc] using h
    simp at hl
  | case3 c hc => simp [fromHex, hc] at h
  | case4 c d s hc ih =>
    rw [fromHex, if_pos hc] at h
    have hle := length_fromHex h
    simp only [List.length_cons] at hl hle
    omega
  | case5 c d s hc ih =>
    rw [fromHex, if_neg hc] at h
    simp only [Option.bind_eq_bind, Option.bind_eq_some_iff, Option.pure_def,
      Option.some.injEq] at h
    obtain ⟨hi, hhi, lo, hlo, rest, hrest, rfl⟩ := h
    obtain ⟨hc', hhi'⟩ := lower_digit hhi
    obtain ⟨hd', hlo'⟩ := lower_digit hlo
    have hnat : (UInt8.ofNat (16 * hi + lo)).toNat = 16 * hi + lo := by
      rw [UInt8.toNat_ofNat']
      omega
    have hs := ih hrest (by simp only [List.length_cons] at hl; omega)
    have hhi₂ : (16 * hi + lo) / 16 = hi := by omega
    have hlo₂ : (16 * hi + lo) % 16 = lo := by omega
    have hcons : hex (UInt8.ofNat (16 * hi + lo) :: rest) =
        hexDigit ((UInt8.ofNat (16 * hi + lo)).toNat / 16) ::
          hexDigit ((UInt8.ofNat (16 * hi + lo)).toNat % 16) :: hex rest := rfl
    rw [hcons, hnat, hhi₂, hlo₂, ← hs, lower, List.map_cons, List.map_cons, hc', hd']
    rfl

def utf8Point (c : CodePoint) : Option Bytes :=
  let n := c.val
  if n < 0x80 then some [.ofNat n]
  else if n < 0x800 then some [.ofNat (0xC0 + n / 64), .ofNat (0x80 + n % 64)]
  else if 0xD800 ≤ n ∧ n < 0xE000 then none
  else if n < 0x10000 then
    some [.ofNat (0xE0 + n / 4096), .ofNat (0x80 + n / 64 % 64), .ofNat (0x80 + n % 64)]
  else
    some [.ofNat (0xF0 + n / 262144), .ofNat (0x80 + n / 4096 % 64), .ofNat (0x80 + n / 64 % 64),
      .ofNat (0x80 + n % 64)]

/-- `str.encode("utf-8")`; `none` is its `UnicodeEncodeError`. -/
def utf8 : PyStr → Option Bytes
  | [] => some []
  | c :: s => do
    let b ← utf8Point c
    let bs ← utf8 s
    return b ++ bs

theorem ofNat_inj {a b : ℕ} (ha : a < 256) (hb : b < 256) :
    UInt8.ofNat a = UInt8.ofNat b ↔ a = b := by
  rw [← UInt8.toNat_inj, UInt8.toNat_ofNat', UInt8.toNat_ofNat']
  omega

theorem utf8Point_ne_nil {c : CodePoint} {b : Bytes} (h : utf8Point c = some b) : b ≠ [] := by
  unfold utf8Point at h
  dsimp only at h
  rintro rfl
  split_ifs at h <;> simp at h

theorem utf8Point_append {c d : CodePoint} {b b' r r' : Bytes} (hc : utf8Point c = some b)
    (hd : utf8Point d = some b') (h : b ++ r = b' ++ r') : c = d ∧ r = r' := by
  have hcl := c.isLt
  have hdl := d.isLt
  unfold utf8Point at hc hd
  dsimp only at hc hd
  split_ifs at hc hd <;> simp only [Option.some.injEq] at hc hd <;> subst hc hd <;>
    simp only [List.cons_append, List.nil_append, List.cons.injEq] at h
  all_goals
    first
    | (obtain ⟨h₁, h₂, h₃, h₄, hr⟩ := h
       rw [ofNat_inj (by omega) (by omega)] at h₁ h₂ h₃ h₄
       exact ⟨Fin.ext (by omega), hr⟩)
    | (obtain ⟨h₁, h₂, h₃, hr⟩ := h
       rw [ofNat_inj (by omega) (by omega)] at h₁ h₂ h₃
       exact ⟨Fin.ext (by omega), hr⟩)
    | (obtain ⟨h₁, h₂, hr⟩ := h
       rw [ofNat_inj (by omega) (by omega)] at h₁ h₂
       exact ⟨Fin.ext (by omega), hr⟩)
    | (obtain ⟨h₁, hr⟩ := h
       rw [ofNat_inj (by omega) (by omega)] at h₁
       exact ⟨Fin.ext (by omega), hr⟩)
    | (have h₁ := h.1
       rw [ofNat_inj (by omega) (by omega)] at h₁
       omega)

theorem utf8_injective {s t : PyStr} {b : Bytes} (hs : utf8 s = some b) (ht : utf8 t = some b) :
    s = t := by
  induction s generalizing t b with
  | nil =>
    cases t with
    | nil => rfl
    | cons d t =>
      obtain rfl : [] = b := by simpa [utf8] using hs
      simp only [utf8, Option.bind_eq_bind, Option.bind_eq_some_iff, Option.pure_def,
        Option.some.injEq, List.append_eq_nil_iff] at ht
      obtain ⟨_, hd, _, -, rfl, -⟩ := ht
      exact absurd rfl (utf8Point_ne_nil hd)
  | cons c s ih =>
    simp only [utf8, Option.bind_eq_bind, Option.bind_eq_some_iff, Option.pure_def,
      Option.some.injEq] at hs
    obtain ⟨b₁, hc, b₂, hs', rfl⟩ := hs
    cases t with
    | nil =>
      simp only [utf8, Option.some.injEq] at ht
      exact absurd (List.append_eq_nil_iff.mp ht.symm).1 (utf8Point_ne_nil hc)
    | cons d t =>
      simp only [utf8, Option.bind_eq_bind, Option.bind_eq_some_iff, Option.pure_def,
        Option.some.injEq] at ht
      obtain ⟨b₃, hd, b₄, ht', h⟩ := ht
      obtain ⟨rfl, rfl⟩ := utf8Point_append hd hc h
      rw [ih hs' ht']

theorem length_utf8 {s : PyStr} {b : Bytes} (h : utf8 s = some b) : s.length ≤ b.length := by
  induction s generalizing b with
  | nil => exact Nat.zero_le _
  | cons c s ih =>
    simp only [utf8, Option.bind_eq_bind, Option.bind_eq_some_iff, Option.pure_def,
      Option.some.injEq] at h
    obtain ⟨b₁, hc, b₂, hs, rfl⟩ := h
    have h₁ := List.length_pos_of_ne_nil (utf8Point_ne_nil hc)
    have h₂ := ih hs
    rw [List.length_append, List.length_cons]
    omega

end Python
