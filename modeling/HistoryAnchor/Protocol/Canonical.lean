import HistoryAnchor.Protocol.Codec

/-! # What has a canonical encoding

A value is encoded exactly if no float, no large integer and no surrogate occurs
in it and it is not nested too deep. A shallow value that is encoded at some depth
is encoded at any other one that leaves room for it.
-/

namespace Python

def Encodable (s : PyStr) : Prop := ∀ c ∈ s, utf8Point c ≠ none

theorem utf8_ne_none {s : PyStr} : utf8 s ≠ none ↔ Encodable s := by
  induction s with
  | nil => simp [utf8, Encodable]
  | cons c s ih =>
    rw [Encodable, List.forall_mem_cons, ← Encodable, ← ih]
    cases hc : utf8Point c <;> cases hs : utf8 s <;> simp [utf8, hc, hs]

theorem encodable_nil : Encodable [] := fun _ h => absurd h List.not_mem_nil

theorem encodable_append {s t : PyStr} : Encodable (s ++ t) ↔ Encodable s ∧ Encodable t :=
  List.forall_mem_append

theorem encodable_cons {c : CodePoint} {s : PyStr} :
    Encodable (c :: s) ↔ utf8Point c ≠ none ∧ Encodable s := List.forall_mem_cons

theorem utf8Point_of_lt {c : CodePoint} (h : c.val < 0x80) : utf8Point c ≠ none := by
  simp [utf8Point, h]

theorem encodable_of_lt {s : PyStr} (h : ∀ c ∈ s, c.val < 0x80) : Encodable s :=
  fun c hc => utf8Point_of_lt (h c hc)

theorem encodable_of_all {s : PyStr} (h : s.all (fun c => c.val < 0x80) = true) : Encodable s :=
  encodable_of_lt (by simpa using h)

theorem val_lt_of_digitValue {c : CodePoint} {n : ℕ} (h : digitValue c = some n) :
    c.val < 0x80 := by
  unfold digitValue at h
  dsimp only at h
  split_ifs at h <;> omega

theorem val_lt_of_isAsciiSpace {c : CodePoint} (h : isAsciiSpace c = true) : c.val < 0x80 := by
  simp only [isAsciiSpace, Bool.or_eq_true, Bool.and_eq_true, decide_eq_true_eq] at h
  omega

theorem encodable_of_fromHex {s : PyStr} {bs : Bytes} (h : fromHex s = some bs) : Encodable s := by
  apply encodable_of_lt
  induction s using fromHex.induct generalizing bs with
  | case1 => exact fun c hc => absurd hc List.not_mem_nil
  | case2 c hc =>
    intro c' hc'
    rw [List.mem_singleton.mp hc']
    exact val_lt_of_isAsciiSpace hc
  | case3 c hc => simp [fromHex, hc] at h
  | case4 c d s hc ih =>
    rw [fromHex, if_pos hc] at h
    exact List.forall_mem_cons.mpr ⟨val_lt_of_isAsciiSpace hc, ih h⟩
  | case5 c d s hc ih =>
    rw [fromHex, if_neg hc] at h
    simp only [Option.bind_eq_bind, Option.bind_eq_some_iff, Option.pure_def] at h
    obtain ⟨hi, hhi, lo, hlo, bs', hbs, -⟩ := h
    exact List.forall_mem_cons.mpr ⟨val_lt_of_digitValue hhi,
      List.forall_mem_cons.mpr ⟨val_lt_of_digitValue hlo, ih hbs⟩⟩

namespace Json

theorem encodable_decimal (n : ℕ) : Encodable (decimal n) :=
  encodable_of_lt fun c hc => by have := (digit_of_mem_decimal hc).2; omega

theorem encodable_decimalInt (n : ℤ) : Encodable (decimalInt n) := by
  cases n with
  | ofNat i => exact encodable_decimal i
  | negSucc i => exact encodable_cons.mpr ⟨by decide, encodable_decimal _⟩

theorem val_lt_of_mem_shortEscapes : ∀ p ∈ shortEscapes, p.1.val < 0x80 ∧ p.2.val < 0x80 := by
  decide

theorem hexDigit_val_lt : ∀ n < 16, (hexDigit n).val < 0x80 := by decide

theorem encodable_escape {c : CodePoint} : Encodable (escape c) ↔ utf8Point c ≠ none := by
  unfold escape
  cases hc : shortEscapes.lookup c with
  | some e =>
    have hlt := val_lt_of_mem_shortEscapes _ (mem_of_lookup hc)
    apply iff_of_true _ (utf8Point_of_lt hlt.1)
    exact encodable_cons.mpr ⟨utf8Point_of_lt (by decide), encodable_cons.mpr
      ⟨utf8Point_of_lt hlt.2, encodable_nil⟩⟩
  | none =>
    dsimp only
    split_ifs with h
    · apply iff_of_true _ (utf8Point_of_lt (by omega))
      apply encodable_of_lt
      simp only [List.forall_mem_cons]
      exact ⟨by decide, by decide, by decide, by decide, hexDigit_val_lt _ (by omega),
        hexDigit_val_lt _ (by omega), fun _ h => absurd h List.not_mem_nil⟩
    · exact ⟨fun h => h c List.mem_cons_self, fun h => encodable_cons.mpr ⟨h, encodable_nil⟩⟩

theorem encodable_quote {s : PyStr} : Encodable (quote s) ↔ Encodable s := by
  have hquote : utf8Point 0x22 ≠ none := utf8Point_of_lt (by decide)
  have hescapes : Encodable (s.flatMap escape) ↔ Encodable s := by
    induction s with
    | nil => rfl
    | cons c s ih => rw [List.flatMap_cons, encodable_append, encodable_escape, ih, encodable_cons]
  rw [quote, List.cons_append, encodable_cons, encodable_append, hescapes, encodable_cons]
  exact ⟨fun h => h.2.1, fun h => ⟨hquote, h, hquote, encodable_nil⟩⟩

theorem encodable_dumpItems {xs : List Json} :
    Encodable (dumpItems xs) ↔ ∀ x ∈ xs, Encodable x.dump := by
  induction xs with
  | nil =>
    exact iff_of_true (encodable_cons.mpr ⟨utf8Point_of_lt (by decide), encodable_nil⟩)
      fun x hx => absurd hx List.not_mem_nil
  | cons x xs ih =>
    rw [dumpItems, encodable_cons, encodable_append, ih, List.forall_mem_cons]
    exact and_iff_right (utf8Point_of_lt (by decide))

theorem encodable_dump_arr {xs : List Json} :
    Encodable (arr xs).dump ↔ ∀ x ∈ xs, Encodable x.dump := by
  cases xs with
  | nil =>
    refine iff_of_true ?_ fun x hx => absurd hx List.not_mem_nil
    exact encodable_cons.mpr ⟨utf8Point_of_lt (by decide), encodable_cons.mpr
      ⟨utf8Point_of_lt (by decide), encodable_nil⟩⟩
  | cons x xs =>
    rw [dump, encodable_cons, encodable_append, encodable_dumpItems, List.forall_mem_cons]
    exact and_iff_right (utf8Point_of_lt (by decide))

theorem encodable_dumpMembers {kvs : List (PyStr × Json)} :
    Encodable (dumpMembers kvs) ↔ ∀ kv ∈ kvs, Encodable kv.1 ∧ Encodable kv.2.dump := by
  induction kvs with
  | nil =>
    exact iff_of_true (encodable_cons.mpr ⟨utf8Point_of_lt (by decide), encodable_nil⟩)
      fun x hx => absurd hx List.not_mem_nil
  | cons kv kvs ih =>
    have hcolon : utf8Point 0x3A ≠ none := utf8Point_of_lt (by decide)
    rw [List.forall_mem_cons, ← ih, dumpMembers, encodable_cons, encodable_append,
      encodable_quote, encodable_cons, encodable_append, and_iff_right hcolon, and_assoc]
    exact and_iff_right (utf8Point_of_lt (by decide))

theorem encodable_dump_obj {kvs : List (PyStr × Json)} :
    Encodable (obj kvs).dump ↔ ∀ kv ∈ kvs, Encodable kv.1 ∧ Encodable kv.2.dump := by
  have hcolon : utf8Point 0x3A ≠ none := utf8Point_of_lt (by decide)
  cases kvs with
  | nil =>
    refine iff_of_true ?_ fun x hx => absurd hx List.not_mem_nil
    exact encodable_cons.mpr ⟨utf8Point_of_lt (by decide), encodable_cons.mpr
      ⟨utf8Point_of_lt (by decide), encodable_nil⟩⟩
  | cons kv kvs =>
    rw [dump, encodable_cons, encodable_append, encodable_quote, encodable_cons, encodable_append,
      encodable_dumpMembers, List.forall_mem_cons, and_iff_right hcolon, and_assoc]
    exact and_iff_right (utf8Point_of_lt (by decide))

end Json

end Python

namespace HistoryAnchor

open Python

/-- The value has a canonical encoding where it stands at the given depth. -/
inductive Encodes : ℕ → Json → Prop
  | null {d : ℕ} : d ≤ 32 → Encodes d .null
  | bool {d : ℕ} {b : Bool} : d ≤ 32 → Encodes d (.bool b)
  | int {d : ℕ} {n : ℤ} : d ≤ 32 → -Codec.maxSafeJsonInteger ≤ n ∧ n ≤ Codec.maxSafeJsonInteger →
      Encodes d (.int n)
  | str {d : ℕ} {s : PyStr} : d ≤ 32 → Encodable s → Encodes d (.str s)
  | arr {d : ℕ} {xs : List Json} : d ≤ 32 → (∀ x ∈ xs, Encodes (d + 1) x) → Encodes d (.arr xs)
  | obj {d : ℕ} {kvs : List (PyStr × Json)} : d ≤ 32 → (∀ kv ∈ kvs, Encodable kv.1) →
      (∀ kv ∈ kvs, Encodes (d + 1) kv.2) → Encodes d (.obj kvs)

namespace Codec

mutual

theorem encodes_iff : ∀ (v : Json) {path : PyStr} {d : ℕ},
    validateJsonValue v path d = .ok () ∧ Encodable v.sortKeys.dump ↔ Encodes d v
  | .null, path, d => by
    simp only [validateJsonValue, bind_ok, require_ok, exists_unit]
    constructor
    · exact fun h => .null h.1.1
    · intro h
      cases h with
      | null h => exact ⟨⟨h, rfl⟩, encodable_of_all (by decide)⟩
  | .bool b, path, d => by
    simp only [validateJsonValue, bind_ok, require_ok, exists_unit]
    constructor
    · exact fun h => .bool h.1.1
    · intro h
      cases h with
      | bool h =>
        refine ⟨⟨h, rfl⟩, ?_⟩
        cases b <;> exact encodable_of_all (by decide)
  | .int n, path, d => by
    simp only [validateJsonValue, bind_ok, require_ok, exists_unit]
    constructor
    · exact fun h => .int h.1.1 h.1.2
    · intro h
      cases h with
      | int h hn => exact ⟨⟨h, hn⟩, Json.encodable_decimalInt n⟩
  | .float q, path, d => by
    simp only [validateJsonValue, bind_ok, require_ok, exists_unit]
    constructor
    · exact fun h => (raise_ne_ok h.1.2).elim
    · rintro ⟨⟩
  | .str s, path, d => by
    simp only [validateJsonValue, bind_ok, require_ok, exists_unit]
    constructor
    · exact fun h => .str h.1.1 (Json.encodable_quote.mp h.2)
    · intro h
      cases h with
      | str h hs => exact ⟨⟨h, rfl⟩, Json.encodable_quote.mpr hs⟩
  | .arr xs, path, d => by
    have hdump : Encodable (Json.arr xs).sortKeys.dump ↔ ∀ x ∈ xs, Encodable x.sortKeys.dump := by
      rw [Json.sortKeys, Json.sortKeysList_eq, Json.encodable_dump_arr, List.forall_mem_map]
    simp only [validateJsonValue, bind_ok, require_ok, exists_unit, hdump, and_assoc]
    rw [encodesItems_iff xs]
    constructor
    · exact fun h => .arr h.1 h.2
    · intro h
      cases h with
      | arr h hxs => exact ⟨h, hxs⟩
  | .obj kvs, path, d => by
    have hdump : Encodable (Json.obj kvs).sortKeys.dump ↔
        ∀ kv ∈ kvs, Encodable kv.1 ∧ Encodable kv.2.sortKeys.dump := by
      rw [Json.sortKeys, Json.encodable_dump_obj]
      simp only [Json.mem_sortMembers, Json.sortKeysMembers_eq, List.forall_mem_map]
    simp only [validateJsonValue, bind_ok, require_ok, exists_unit, hdump, and_assoc]
    rw [encodesMembers_iff kvs]
    constructor
    · exact fun h => .obj h.1 (fun kv hkv => (h.2 kv hkv).1) fun kv hkv => (h.2 kv hkv).2
    · intro h
      cases h with
      | obj h hkeys hkvs => exact ⟨h, fun kv hkv => ⟨hkeys kv hkv, hkvs kv hkv⟩⟩

theorem encodesItems_iff : ∀ (xs : List Json) {path : PyStr} {d index : ℕ},
    (validateItems xs path d index = .ok () ∧ ∀ x ∈ xs, Encodable x.sortKeys.dump) ↔
      ∀ x ∈ xs, Encodes (d + 1) x
  | [], _, _, _ => iff_of_true ⟨rfl, fun _ h => absurd h List.not_mem_nil⟩
      fun _ h => absurd h List.not_mem_nil
  | x :: xs, path, d, index => by
    simp only [validateItems, bind_ok, exists_unit, List.forall_mem_cons]
    rw [← encodes_iff x, ← encodesItems_iff xs]
    exact and_and_and_comm

theorem encodesMembers_iff : ∀ (kvs : List (PyStr × Json)) {path : PyStr} {d : ℕ},
    (validateMembers kvs path d = .ok () ∧
      ∀ kv ∈ kvs, Encodable kv.1 ∧ Encodable kv.2.sortKeys.dump) ↔
      ∀ kv ∈ kvs, Encodable kv.1 ∧ Encodes (d + 1) kv.2
  | [], _, _ => iff_of_true ⟨rfl, fun _ h => absurd h List.not_mem_nil⟩
      fun _ h => absurd h List.not_mem_nil
  | (k, x) :: kvs, path, d => by
    simp only [validateMembers, bind_ok, exists_unit, List.forall_mem_cons]
    rw [← encodes_iff x, ← encodesMembers_iff kvs]
    constructor
    · exact fun ⟨⟨hx, hxs⟩, ⟨hk, hd⟩, hr⟩ => ⟨⟨hk, hx, hd⟩, hxs, hr⟩
    · exact fun ⟨⟨hk, hx, hd⟩, hxs, hr⟩ => ⟨⟨hx, hxs⟩, ⟨hk, hd⟩, hr⟩

end

theorem exists_canonicalJsonBytes_iff {v : Json} :
    (∃ b, canonicalJsonBytes v = .ok b) ↔ Encodes 0 v := by
  rw [← encodes_iff v, ← utf8_ne_none]
  simp only [canonicalJsonBytes, bind_ok, exists_unit]
  cases utf8 v.sortKeys.dump with
  | none =>
    refine iff_of_false ?_ fun h => h.2 rfl
    rintro ⟨_, -, h⟩
    exact raise_ne_ok h
  | some bs =>
    constructor
    · rintro ⟨_, h, -⟩
      exact ⟨h, Option.some_ne_none bs⟩
    · exact fun h => ⟨bs, h.1, rfl⟩

end Codec

def Shallow : ℕ → Json → Prop
  | 0, .arr _ | 0, .obj _ => False
  | n + 1, .arr xs => ∀ x ∈ xs, Shallow n x
  | n + 1, .obj kvs => ∀ kv ∈ kvs, Shallow n kv.2
  | _, _ => True

theorem Encodes.move {n d d' : ℕ} {v : Json} (h : Encodes d v) (hv : Shallow n v)
    (hd : d' + n ≤ 32) : Encodes d' v := by
  induction n generalizing d d' v with
  | zero =>
    cases h with
    | null => exact .null (by omega)
    | bool => exact .bool (by omega)
    | int _ hn => exact .int (by omega) hn
    | str _ hs => exact .str (by omega) hs
    | arr => exact hv.elim
    | obj => exact hv.elim
  | succ n ih =>
    cases h with
    | null => exact .null (by omega)
    | bool => exact .bool (by omega)
    | int _ hn => exact .int (by omega) hn
    | str _ hs => exact .str (by omega) hs
    | arr _ hxs => exact .arr (by omega) fun x hx => ih (hxs x hx) (hv x hx) (by omega)
    | obj _ hkeys hkvs =>
      exact .obj (by omega) hkeys fun kv hkv => ih (hkvs kv hkv) (hv kv hkv) (by omega)

end HistoryAnchor
