import HistoryAnchor.Python.Reading

/-! # Reading JSON from bytes

`json.loads` on `bytes`: the encoding is detected from the first bytes, and UTF-8 is decoded
with surrogates let through. The decoders of the wide encodings are a parameter.
-/

namespace Python

def continuation (b : UInt8) : Option ℕ :=
  if 0x80 ≤ b.toNat ∧ b.toNat < 0xC0 then some (b.toNat - 0x80) else none

/-- A code point at the head of the bytes, and the bytes after it; surrogates pass. -/
def decodePoint : Bytes → Option (CodePoint × Bytes)
  | [] => none
  | a :: s =>
    let n := a.toNat
    if n < 0x80 then some (Fin.ofNat _ n, s)
    else if n < 0xC2 then none
    else if n < 0xE0 then
      match s with
      | b :: s => do
        let y ← continuation b
        return (Fin.ofNat _ (64 * (n - 0xC0) + y), s)
      | _ => none
    else if n < 0xF0 then
      match s with
      | b :: c :: s => do
        let y ← continuation b
        let z ← continuation c
        let p := 4096 * (n - 0xE0) + 64 * y + z
        if p < 0x800 then none
        return (Fin.ofNat _ p, s)
      | _ => none
    else
      match s with
      | b :: c :: d :: s => do
        let y ← continuation b
        let z ← continuation c
        let w ← continuation d
        let p := 262144 * (n - 0xF0) + 4096 * y + 64 * z + w
        if p < 0x10000 ∨ 0x10FFFF < p then none
        return (Fin.ofNat _ p, s)
      | _ => none

def decodePoints : ℕ → Bytes → Option PyStr
  | _, [] => some []
  | 0, _ => none
  | n + 1, s => do
    let (c, r) ← decodePoint s
    let t ← decodePoints n r
    return c :: t

/-- `bytes.decode("utf-8", "surrogatepass")`; `none` is its `UnicodeDecodeError`. -/
def decodeUtf8 (s : Bytes) : Option PyStr := decodePoints s.length s

theorem continuation_ofNat {n : ℕ} (h : n < 64) :
    continuation (UInt8.ofNat (0x80 + n)) = some n := by
  have hn : (UInt8.ofNat (0x80 + n)).toNat = 0x80 + n := by
    rw [UInt8.toNat_ofNat']
    omega
  rw [continuation, hn, if_pos ⟨Nat.le_add_right _ _, by omega⟩, Nat.add_sub_cancel_left]

theorem decodePoint_utf8Point {c : CodePoint} {b : Bytes} (h : utf8Point c = some b) (r : Bytes) :
    decodePoint (b ++ r) = some (c, r) := by
  have hlt := c.isLt
  have hself : ∀ n, n = c.val → (Fin.ofNat _ n : CodePoint) = c := by
    rintro _ rfl
    exact Fin.ext (Nat.mod_eq_of_lt hlt)
  have hnat : ∀ {n : ℕ}, n < 256 → (UInt8.ofNat n).toNat = n := by
    intro n hn
    rw [UInt8.toNat_ofNat']
    omega
  unfold utf8Point at h
  dsimp only at h
  split_ifs at h with h₁ h₂ h₃ h₄ <;> obtain rfl := Option.some.inj h
  · simp only [List.cons_append, List.nil_append, decodePoint]
    rw [hnat (by omega), if_pos h₁, hself _ rfl]
  · simp only [List.cons_append, List.nil_append, decodePoint]
    rw [hnat (by omega), if_neg (by omega), if_neg (by omega), if_pos (by omega),
      continuation_ofNat (by omega)]
    simp only [Option.bind_eq_bind, Option.bind_some, Option.pure_def]
    rw [hself _ (by omega)]
  · simp only [List.cons_append, List.nil_append, decodePoint]
    rw [hnat (by omega), if_neg (by omega), if_neg (by omega), if_neg (by omega),
      if_pos (by omega), continuation_ofNat (by omega), continuation_ofNat (by omega)]
    simp only [Option.bind_eq_bind, Option.bind_some, Option.pure_def]
    rw [if_neg (by omega), hself _ (by omega)]
  · simp only [List.cons_append, List.nil_append, decodePoint]
    rw [hnat (by omega), if_neg (by omega), if_neg (by omega), if_neg (by omega),
      if_neg (by omega), continuation_ofNat (by omega), continuation_ofNat (by omega),
      continuation_ofNat (by omega)]
    simp only [Option.bind_eq_bind, Option.bind_some, Option.pure_def]
    rw [if_neg (by omega), hself _ (by omega)]

theorem decodePoints_utf8 {s : PyStr} {b : Bytes} (h : utf8 s = some b) {n : ℕ}
    (hn : s.length ≤ n) : decodePoints n b = some s := by
  induction s generalizing b n with
  | nil =>
    obtain rfl : [] = b := by simpa [utf8] using h
    cases n <;> rfl
  | cons c s ih =>
    simp only [utf8, Option.bind_eq_bind, Option.bind_eq_some_iff, Option.pure_def,
      Option.some.injEq] at h
    obtain ⟨b₁, hc, b₂, hs, rfl⟩ := h
    cases n with
    | zero => exact absurd hn (Nat.not_succ_le_zero _)
    | succ n =>
      obtain ⟨x, xs, hx⟩ := List.exists_cons_of_ne_nil (utf8Point_ne_nil hc)
      rw [hx, List.cons_append, decodePoints, ← List.cons_append, ← hx, decodePoint_utf8Point hc]
      · simp only [Option.bind_eq_bind, Option.bind_some, ih hs (Nat.le_of_succ_le_succ hn),
          Option.pure_def]
      · exact List.cons_ne_nil _ _

theorem decodeUtf8_utf8 {s : PyStr} {b : Bytes} (h : utf8 s = some b) : decodeUtf8 b = some s :=
  decodePoints_utf8 h (length_utf8 h)

def announcesWide (b : Bytes) : Bool :=
  [0xFE, 0xFF].isPrefixOf b || [0xFF, 0xFE].isPrefixOf b || [0, 0, 0xFE, 0xFF].isPrefixOf b ||
    ((4 ≤ b.length || b.length = 2) && (b.take 2).any (· = 0))

/-- What `json.loads` rests on: the value of a number with a fraction or an exponent, and the
decoders of the wide encodings. -/
structure Loader where
  readFloat : PyStr → Option ℚ
  decodeWide : Bytes → Option PyStr

/-- `json.loads` on bytes; `none` is its `ValueError`. -/
def Loader.loads (loader : Loader) (b : Bytes) : Option Json := do
  let text ←
    if announcesWide b then loader.decodeWide b
    else if [0xEF, 0xBB, 0xBF].isPrefixOf b then decodeUtf8 (b.drop 3)
    else decodeUtf8 b
  Json.loads loader.readFloat text

theorem utf8Point_head_ne {c : CodePoint} {b : Bytes} (h : utf8Point c = some b) (hc : c ≠ 0) :
    b.head? ≠ some 0 := by
  have hlt := c.isLt
  have hpos : c.val ≠ 0 := fun he => hc (Fin.ext he)
  have hne : ∀ {n : ℕ}, n ≠ 0 → n < 256 → UInt8.ofNat n ≠ 0 := fun hn hn' he =>
    hn ((ofNat_inj hn' (by omega)).mp he)
  unfold utf8Point at h
  dsimp only at h
  split_ifs at h <;> obtain rfl := Option.some.inj h <;>
    exact fun he => hne (by omega) (by omega) (Option.some.inj he)

theorem utf8_head_ne {s : PyStr} {b : Bytes} (h : utf8 s = some b) (hs : s.head? ≠ some 0) :
    b.head? ≠ some 0 := by
  cases s with
  | nil =>
    obtain rfl : [] = b := by simpa [utf8] using h
    rintro ⟨⟩
  | cons c s =>
    simp only [utf8, Option.bind_eq_bind, Option.bind_eq_some_iff, Option.pure_def,
      Option.some.injEq] at h
    obtain ⟨b₁, hc, b₂, -, rfl⟩ := h
    rw [List.head?_append_of_ne_nil _ (utf8Point_ne_nil hc)]
    exact utf8Point_head_ne hc fun he => hs (congrArg some he)

/-- A text that starts with an ASCII character and has no zero character is read as UTF-8. -/
theorem Loader.loads_utf8 {loader : Loader} {c : CodePoint} {s : PyStr} {b : Bytes}
    (h : utf8 (c :: s) = some b) (hc : c.val < 0x80) (hne : c ≠ 0) (hs : s.head? ≠ some 0) :
    loader.loads b = Json.loads loader.readFloat (c :: s) := by
  have hdecode := decodeUtf8_utf8 h
  simp only [utf8, Option.bind_eq_bind, Option.bind_eq_some_iff, Option.pure_def,
    Option.some.injEq] at h
  obtain ⟨b₁, hb₁, b₂, hb₂, rfl⟩ := h
  have hpoint : utf8Point c = some [UInt8.ofNat c.val] := by rw [utf8Point, if_pos hc]
  obtain rfl := Option.some.inj (hpoint.symm.trans hb₁)
  have hbyte : ∀ n < 256, n ≠ c.val → UInt8.ofNat c.val ≠ UInt8.ofNat n := fun n hn hv he =>
    hv ((ofNat_inj (by omega) hn).mp he).symm
  have hzero : UInt8.ofNat c.val ≠ 0 := hbyte 0 (by omega) fun he => hne (Fin.ext he.symm)
  have hnext := utf8_head_ne hb₂ hs
  have hnarrow : announcesWide ([UInt8.ofNat c.val] ++ b₂) = false := by
    have h₁ : UInt8.ofNat c.val ≠ 0xFE := hbyte 0xFE (by omega) (by omega)
    have h₂ : UInt8.ofNat c.val ≠ 0xFF := hbyte 0xFF (by omega) (by omega)
    cases b₂ with
    | nil => simp [announcesWide, List.isPrefixOf, hzero]
    | cons x t =>
      have hx : x ≠ 0 := fun he => hnext (congrArg some he)
      simp [announcesWide, List.isPrefixOf, h₁.symm, h₂.symm, hzero.symm, hzero, hx]
  have hbom : [0xEF, 0xBB, 0xBF].isPrefixOf ([UInt8.ofNat c.val] ++ b₂) = false := by
    have h₁ : UInt8.ofNat c.val ≠ 0xEF := hbyte 0xEF (by omega) (by omega)
    simp [List.isPrefixOf, h₁.symm]
  rw [Loader.loads, hnarrow, hbom, hdecode]
  rfl

namespace Json

theorem space_le_escape {c d : CodePoint} (h : d ∈ escape c) : 0x20 ≤ d.val := by
  unfold escape at h
  cases hc : shortEscapes.lookup c with
  | some e =>
    have hall : ∀ p ∈ shortEscapes, 0x20 ≤ p.2.val := by decide
    simp only [hc, List.mem_cons, List.not_mem_nil, or_false] at h
    rcases h with rfl | rfl
    · decide
    · exact hall _ (mem_of_lookup hc)
  | none =>
    have hhex : ∀ n < 16, 0x20 ≤ (hexDigit n).val := by decide
    simp only [hc] at h
    split_ifs at h with hlt
    · simp only [List.mem_cons, List.not_mem_nil, or_false] at h
      rcases h with rfl | rfl | rfl | rfl | rfl | rfl
      · decide
      · decide
      · decide
      · decide
      · exact hhex _ (by omega)
      · exact hhex _ (by omega)
    · obtain rfl := List.mem_singleton.mp h
      omega

def Printable (s : PyStr) : Prop := ∀ c ∈ s, 0x20 ≤ c.val

instance (s : PyStr) : Decidable (Printable s) := List.decidableBAll _ s

theorem printable_cons {c : CodePoint} {s : PyStr} :
    Printable (c :: s) ↔ 0x20 ≤ c.val ∧ Printable s := List.forall_mem_cons

theorem printable_append {s t : PyStr} : Printable (s ++ t) ↔ Printable s ∧ Printable t :=
  List.forall_mem_append

theorem printable_nil : Printable [] := fun _ h => absurd h List.not_mem_nil

theorem printable_quote (s : PyStr) : Printable (quote s) := by
  rw [quote, List.cons_append, printable_cons, printable_append, printable_cons]
  refine ⟨by decide, fun d hd => ?_, by decide, printable_nil⟩
  obtain ⟨c, -, hc⟩ := List.mem_flatMap.mp hd
  exact space_le_escape hc

theorem printable_decimal (n : ℕ) : Printable (decimal n) := fun c hc =>
  le_trans (by omega) (digit_of_mem_decimal hc).1

theorem printable_dumpItems {xs : List Json} (h : ∀ x ∈ xs, Printable x.dump) :
    Printable (dumpItems xs) := by
  induction xs with
  | nil => exact printable_cons.mpr ⟨by decide, printable_nil⟩
  | cons x xs ih =>
    rw [List.forall_mem_cons] at h
    exact printable_cons.mpr ⟨by decide, printable_append.mpr ⟨h.1, ih h.2⟩⟩

theorem printable_dumpMembers {kvs : List (PyStr × Json)} (h : ∀ kv ∈ kvs, Printable kv.2.dump) :
    Printable (dumpMembers kvs) := by
  induction kvs with
  | nil => exact printable_cons.mpr ⟨by decide, printable_nil⟩
  | cons kv kvs ih =>
    rw [List.forall_mem_cons] at h
    exact printable_cons.mpr ⟨by decide, printable_append.mpr ⟨printable_quote _,
      printable_cons.mpr ⟨by decide, printable_append.mpr ⟨h.1, ih h.2⟩⟩⟩⟩

theorem printable_dump (v : Json) : Printable v.dump := by
  induction v using induct with
  | hnull => decide
  | hbool b => cases b <;> decide
  | hint n =>
    cases n with
    | ofNat i => exact printable_decimal i
    | negSucc i => exact printable_cons.mpr ⟨by decide, printable_decimal _⟩
  | hfloat q => exact printable_nil
  | hstr s => exact printable_quote s
  | harr xs ih =>
    cases xs with
    | nil => decide
    | cons x xs =>
      rw [List.forall_mem_cons] at ih
      exact printable_cons.mpr ⟨by decide, printable_append.mpr ⟨ih.1, printable_dumpItems ih.2⟩⟩
  | hobj kvs ih =>
    cases kvs with
    | nil => decide
    | cons kv kvs =>
      rw [List.forall_mem_cons] at ih
      exact printable_cons.mpr ⟨by decide, printable_append.mpr ⟨printable_quote _,
        printable_cons.mpr ⟨by decide, printable_append.mpr ⟨ih.1, printable_dumpMembers ih.2⟩⟩⟩⟩

theorem dump_first_lt {v : Json} (h : v.Readable) : ∀ c ∈ v.dump.head?, c.val < 0x80 := by
  intro c hc
  match v with
  | null | bool true | bool false | int (.negSucc n) | str s | arr [] | arr (x :: xs) | obj []
  | obj ((k, x) :: kvs) =>
    obtain rfl := Option.some.inj hc
    decide
  | int (.ofNat n) =>
    have hd := digit_of_mem_decimal (n := n) (List.mem_of_mem_head? hc)
    omega
  | float q => exact h.elim

end Json

/-- `json.loads` reads the bytes of a value's text. -/
theorem Loader.loads_dump {loader : Loader} {v : Json} {b : Bytes}
    (h : ∀ d x, Json.Part d v x → x.Readable) (hb : utf8 v.dump = some b) :
    loader.loads b = some v := by
  obtain ⟨c, t, hc, -, -⟩ := Json.dump_first (h 0 v .self)
  have hprint := Json.printable_dump v
  have hlt := Json.dump_first_lt (h 0 v .self)
  rw [hc] at hb hprint hlt
  rw [Json.printable_cons] at hprint
  rw [loads_utf8 hb (hlt c rfl), ← hc, Json.loads_dump h]
  · rintro rfl
    exact absurd hprint.1 (by decide)
  · intro he
    exact absurd (hprint.2 0 (List.mem_of_mem_head? he)) (by decide)

end Python
