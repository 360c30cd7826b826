import HistoryAnchor.Python.Json

/-! # The sorted encoding determines the value

The text of a value ends where the value ends, so two values without floats and
with one text are equal. Sorting the keys forgets the order of members and
nothing else.
-/

namespace Python

namespace Json

def Stops (r : PyStr) : Prop := ∀ c ∈ r.head?, c.val < 48 ∨ 57 < c.val

theorem append_inj_of_digits {a b r r' : PyStr} (ha : ∀ c ∈ a, 48 ≤ c.val ∧ c.val ≤ 57)
    (hb : ∀ c ∈ b, 48 ≤ c.val ∧ c.val ≤ 57) (hr : Stops r) (hr' : Stops r')
    (h : a ++ r = b ++ r') : a = b ∧ r = r' := by
  induction a generalizing b with
  | nil =>
    cases b with
    | nil => exact ⟨rfl, h⟩
    | cons d b =>
      have hd := hb d List.mem_cons_self
      have hs := hr d (by rw [List.nil_append] at h; rw [h]; rfl)
      omega
  | cons c a ih =>
    cases b with
    | nil =>
      have hc := ha c List.mem_cons_self
      have hs := hr' c (by rw [List.nil_append] at h; rw [← h]; rfl)
      omega
    | cons d b =>
      obtain ⟨rfl, htl⟩ := List.cons.inj h
      obtain ⟨rfl, rfl⟩ := ih (fun c hc => ha c (List.mem_cons_of_mem _ hc))
        (fun c hc => hb c (List.mem_cons_of_mem _ hc)) htl
      exact ⟨rfl, rfl⟩

theorem digit_of_mem_decimal {n : ℕ} {c : CodePoint} (h : c ∈ decimal n) :
    48 ≤ c.val ∧ c.val ≤ 57 := by
  obtain ⟨d, hd, rfl⟩ := List.mem_map.mp h
  have hdig := Nat.isDigit_of_mem_toDigits (by omega) (by omega) hd
  simp only [Char.isDigit, Bool.and_eq_true, decide_eq_true_eq, ge_iff_le] at hdig
  have h₁ : 48 ≤ d.toNat := hdig.1
  have h₂ : d.toNat ≤ 57 := hdig.2
  have hv : (Fin.ofNat 0x110000 d.toNat).val = d.toNat % 0x110000 := rfl
  omega

theorem decimal_ne_nil (n : ℕ) : decimal n ≠ [] := by
  simp [decimal, Nat.toDigits_ne_nil]

theorem decimal_injective : Function.Injective decimal := by
  intro m n h
  have hmap : Nat.toDigits 10 m = Nat.toDigits 10 n := by
    apply List.map_injective_iff.mpr _ h
    intro c d hcd
    have hval : c.toNat % 0x110000 = d.toNat % 0x110000 := congrArg Fin.val hcd
    have hc : c.toNat < 0xD800 ∨ 0xDFFF < c.toNat ∧ c.toNat < 0x110000 := c.valid
    have hd : d.toNat < 0xD800 ∨ 0xDFFF < d.toNat ∧ d.toNat < 0x110000 := d.valid
    exact Char.toNat_inj.mp (by omega)
  rw [← Nat.ofDigitChars_ten_toDigits (n := m), hmap, Nat.ofDigitChars_ten_toDigits]

theorem decimalInt_append {m n : ℤ} {r r' : PyStr} (hr : Stops r) (hr' : Stops r')
    (h : decimalInt m ++ r = decimalInt n ++ r') : m = n ∧ r = r' := by
  have key : ∀ {i j : ℕ} {r r' : PyStr}, Stops r → Stops r' →
      decimal i ++ r = decimal j ++ r' → i = j ∧ r = r' := by
    intro i j r r' hr hr' h
    obtain ⟨he, rfl⟩ := append_inj_of_digits (fun _ => digit_of_mem_decimal)
      (fun _ => digit_of_mem_decimal) hr hr' h
    exact ⟨decimal_injective he, rfl⟩
  have minus : ∀ {i : ℕ} {r t : PyStr}, decimal i ++ r ≠ 0x2D :: t := by
    intro i r t h
    obtain ⟨c, l, hl⟩ := List.exists_cons_of_ne_nil (decimal_ne_nil i)
    have hc := digit_of_mem_decimal (n := i) (c := c) (by rw [hl]; exact List.mem_cons_self)
    rw [hl] at h
    obtain ⟨rfl, -⟩ := List.cons.inj h
    exact absurd hc (by decide)
  cases m with
  | ofNat i =>
    cases n with
    | ofNat j =>
      obtain ⟨rfl, rfl⟩ := key hr hr' h
      exact ⟨rfl, rfl⟩
    | negSucc j => exact absurd h minus
  | negSucc i =>
    cases n with
    | ofNat j => exact absurd h.symm minus
    | negSucc j =>
      obtain ⟨he, rfl⟩ := key hr hr' (List.cons.inj h).2
      obtain rfl : i = j := by omega
      exact ⟨rfl, rfl⟩

theorem hexDigit_inj : ∀ m < 16, ∀ n < 16, hexDigit m = hexDigit n → m = n := by decide

theorem shortEscapes_inj : ∀ p ∈ shortEscapes, ∀ q ∈ shortEscapes, p.2 = q.2 → p.1 = q.1 := by
  decide

theorem shortEscapes_ne : ∀ p ∈ shortEscapes, p.2 ≠ 0x75 := by decide

theorem ne_of_lookup_eq_none {c : CodePoint} (h : shortEscapes.lookup c = none) :
    c ≠ 0x22 ∧ c ≠ 0x5C := by
  refine ⟨?_, ?_⟩ <;> rintro rfl <;> revert h <;> decide

theorem escape_append {c d : CodePoint} {r r' : PyStr} (h : escape c ++ r = escape d ++ r') :
    c = d ∧ r = r' := by
  unfold escape at h
  cases hc : shortEscapes.lookup c with
  | some e =>
    cases hd : shortEscapes.lookup d with
    | some e' =>
      simp only [hc, hd, List.cons_append, List.nil_append, List.cons.injEq, true_and] at h
      exact ⟨shortEscapes_inj _ (mem_of_lookup hc) _ (mem_of_lookup hd) h.1, h.2⟩
    | none =>
      simp only [hc, hd] at h
      split_ifs at h <;> simp only [List.cons_append, List.nil_append, List.cons.injEq] at h
      · exact absurd h.2.1 (shortEscapes_ne _ (mem_of_lookup hc))
      · exact absurd h.1.symm (ne_of_lookup_eq_none hd).2
  | none =>
    cases hd : shortEscapes.lookup d with
    | some e' =>
      simp only [hc, hd] at h
      split_ifs at h <;> simp only [List.cons_append, List.nil_append, List.cons.injEq] at h
      · exact absurd h.2.1.symm (shortEscapes_ne _ (mem_of_lookup hd))
      · exact absurd h.1 (ne_of_lookup_eq_none hc).2
    | none =>
      simp only [hc, hd] at h
      split_ifs at h with h₁ h₂ h₂ <;>
        simp only [List.cons_append, List.nil_append, List.cons.injEq] at h
      · obtain ⟨-, -, -, -, hhi, hlo, hr⟩ := h
        have e₁ := hexDigit_inj _ (by omega) _ (by omega) hhi
        have e₂ := hexDigit_inj _ (by omega) _ (by omega) hlo
        exact ⟨Fin.ext (by omega), hr⟩
      · exact absurd h.1.symm (ne_of_lookup_eq_none hd).2
      · exact absurd h.1 (ne_of_lookup_eq_none hc).2
      · exact h

theorem escape_cons_ne {c : CodePoint} {r r' : PyStr} : escape c ++ r ≠ 0x22 :: r' := by
  intro h
  unfold escape at h
  cases hc : shortEscapes.lookup c with
  | some e =>
    simp only [hc, List.cons_append, List.cons.injEq] at h
    exact absurd h.1 (by decide)
  | none =>
    simp only [hc] at h
    split_ifs at h <;> simp only [List.cons_append, List.nil_append, List.cons.injEq] at h
    · exact absurd h.1 (by decide)
    · exact absurd h.1 (ne_of_lookup_eq_none hc).1

theorem quote_append {s t : PyStr} {r r' : PyStr} (h : quote s ++ r = quote t ++ r') :
    s = t ∧ r = r' := by
  simp only [quote, List.cons_append, List.append_assoc, List.nil_append, List.cons.injEq,
    true_and] at h
  induction s generalizing t with
  | nil =>
    cases t with
    | nil => exact ⟨rfl, by simpa using h⟩
    | cons d t =>
      rw [List.flatMap_nil, List.nil_append, List.flatMap_cons, List.append_assoc] at h
      exact absurd h.symm escape_cons_ne
  | cons c s ih =>
    cases t with
    | nil =>
      rw [List.flatMap_nil, List.nil_append, List.flatMap_cons, List.append_assoc] at h
      exact absurd h escape_cons_ne
    | cons d t =>
      rw [List.flatMap_cons, List.flatMap_cons, List.append_assoc, List.append_assoc] at h
      obtain ⟨rfl, htl⟩ := escape_append h
      obtain ⟨rfl, rfl⟩ := ih htl
      exact ⟨rfl, rfl⟩

def announces (c : CodePoint) : ℕ :=
  if c = 0x6E then 0 else if c = 0x74 then 1 else if c = 0x66 then 2 else if c = 0x22 then 4
  else if c = 0x5B then 5 else if c = 0x7B then 6 else 3

def kind : Json → ℕ
  | null => 0
  | bool true => 1
  | bool false => 2
  | int _ => 3
  | str _ => 4
  | arr _ => 5
  | obj _ => 6
  | float _ => 7

theorem announces_of_digit {c : CodePoint} (h : 48 ≤ c.val ∧ c.val ≤ 57) : announces c = 3 := by
  unfold announces
  repeat rw [if_neg (by rintro rfl; revert h; decide)]

theorem dump_head {v : Json} (h : v.Exact) :
    ∃ c t, v.dump = c :: t ∧ announces c = v.kind ∧ c ≠ 0x5D := by
  match v with
  | null => exact ⟨0x6E, _, rfl, rfl, by decide⟩
  | bool true => exact ⟨0x74, _, rfl, rfl, by decide⟩
  | bool false => exact ⟨0x66, _, rfl, rfl, by decide⟩
  | int (.negSucc n) => exact ⟨0x2D, _, rfl, rfl, by decide⟩
  | int (.ofNat n) =>
    obtain ⟨c, t, ht⟩ := List.exists_cons_of_ne_nil (decimal_ne_nil n)
    have hc := digit_of_mem_decimal (n := n) (c := c) (by rw [ht]; exact List.mem_cons_self)
    refine ⟨c, t, ht, announces_of_digit hc, ?_⟩
    rintro rfl
    exact absurd hc (by decide)
  | float q => exact h.elim
  | str s => exact ⟨0x22, _, rfl, rfl, by decide⟩
  | arr [] => exact ⟨0x5B, _, rfl, rfl, by decide⟩
  | arr (x :: xs) => exact ⟨0x5B, _, rfl, rfl, by decide⟩
  | obj [] => exact ⟨0x7B, _, rfl, rfl, by decide⟩
  | obj ((k, x) :: kvs) => exact ⟨0x7B, _, rfl, rfl, by decide⟩

theorem kind_eq_of_dump {v w : Json} (hv : v.Exact) (hw : w.Exact) {r r' : PyStr}
    (h : v.dump ++ r = w.dump ++ r') : v.kind = w.kind := by
  obtain ⟨c, t, hc, hk, -⟩ := dump_head hv
  obtain ⟨d, t', hd, hk', -⟩ := dump_head hw
  rw [hc, hd, List.cons_append, List.cons_append] at h
  rw [← hk, ← hk', (List.cons.inj h).1]

theorem dump_append_ne {v : Json} (hv : v.Exact) {r r' : PyStr} : v.dump ++ r ≠ 0x5D :: r' := by
  obtain ⟨c, t, hc, -, hne⟩ := dump_head hv
  rw [hc]
  intro h
  exact hne (List.cons.inj h).1

theorem dumpItems_head (xs : List Json) :
    ∃ c t, dumpItems xs = c :: t ∧ (c = 0x5D ∧ xs = [] ∨ c = 0x2C ∧ xs ≠ []) := by
  cases xs with
  | nil => exact ⟨_, _, rfl, Or.inl ⟨rfl, rfl⟩⟩
  | cons x xs => exact ⟨_, _, rfl, Or.inr ⟨rfl, by simp⟩⟩

theorem dumpMembers_head (kvs : List (PyStr × Json)) :
    ∃ c t, dumpMembers kvs = c :: t ∧ (c = 0x7D ∧ kvs = [] ∨ c = 0x2C ∧ kvs ≠ []) := by
  cases kvs with
  | nil => exact ⟨_, _, rfl, Or.inl ⟨rfl, rfl⟩⟩
  | cons kv kvs => exact ⟨_, _, rfl, Or.inr ⟨rfl, by simp⟩⟩

theorem stops_cons {c : CodePoint} {r : PyStr} (h : c.val < 48 ∨ 57 < c.val) : Stops (c :: r) := by
  intro d hd
  obtain rfl : c = d := by simpa using hd
  exact h

theorem stops_items (xs : List Json) (r : PyStr) : Stops (dumpItems xs ++ r) := by
  obtain ⟨c, t, h, hc⟩ := dumpItems_head xs
  rw [h]
  rcases hc with ⟨rfl, -⟩ | ⟨rfl, -⟩
  · exact stops_cons (by decide)
  · exact stops_cons (by decide)

theorem stops_members (kvs : List (PyStr × Json)) (r : PyStr) :
    Stops (dumpMembers kvs ++ r) := by
  obtain ⟨c, t, h, hc⟩ := dumpMembers_head kvs
  rw [h]
  rcases hc with ⟨rfl, -⟩ | ⟨rfl, -⟩
  · exact stops_cons (by decide)
  · exact stops_cons (by decide)

mutual

theorem dump_append : ∀ (v w : Json) {r r' : PyStr}, v.Exact → w.Exact → Stops r → Stops r' →
    v.dump ++ r = w.dump ++ r' → v = w ∧ r = r'
  | v, w, r, r', hv, hw, hr, hr', h => by
    have hk := kind_eq_of_dump hv hw h
    match v, w with
    | null, null => exact ⟨rfl, List.append_cancel_left h⟩
    | bool true, bool true => exact ⟨rfl, List.append_cancel_left h⟩
    | bool false, bool false => exact ⟨rfl, List.append_cancel_left h⟩
    | int m, int n =>
      obtain ⟨rfl, rfl⟩ := decimalInt_append hr hr' h
      exact ⟨rfl, rfl⟩
    | str s, str t =>
      obtain ⟨rfl, rfl⟩ := quote_append h
      exact ⟨rfl, rfl⟩
    | arr [], arr [] => exact ⟨rfl, List.append_cancel_left h⟩
    | arr (x :: xs), arr (y :: ys) =>
      simp only [dump, List.cons_append, List.append_assoc, List.cons.injEq, true_and] at h
      obtain ⟨rfl, h'⟩ := dump_append x y hv.1 hw.1 (stops_items _ _) (stops_items _ _) h
      obtain ⟨rfl, rfl⟩ := dumpItems_append xs ys hv.2 hw.2 h'
      exact ⟨rfl, rfl⟩
    | arr [], arr (y :: ys) =>
      simp only [dump, List.cons_append, List.append_assoc, List.cons.injEq, true_and] at h
      exact absurd h.symm (dump_append_ne hw.1)
    | arr (x :: xs), arr [] =>
      simp only [dump, List.cons_append, List.append_assoc, List.cons.injEq, true_and] at h
      exact absurd h (dump_append_ne hv.1)
    | obj [], obj [] => exact ⟨rfl, List.append_cancel_left h⟩
    | obj ((k, x) :: kvs), obj ((l, y) :: lws) =>
      simp only [dump, List.cons_append, List.append_assoc, List.cons.injEq, true_and] at h
      obtain ⟨rfl, h'⟩ := quote_append h
      obtain ⟨rfl, h''⟩ := dump_append x y hv.1 hw.1 (stops_members _ _) (stops_members _ _)
        (List.cons.inj h').2
      obtain ⟨rfl, rfl⟩ := dumpMembers_append kvs lws hv.2 hw.2 h''
      exact ⟨rfl, rfl⟩
    | obj [], obj ((l, y) :: lws) =>
      simp [dump, quote] at h
    | obj ((k, x) :: kvs), obj [] =>
      simp [dump, quote] at h

theorem dumpItems_append : ∀ (xs ys : List Json) {r r' : PyStr}, ExactList xs → ExactList ys →
    dumpItems xs ++ r = dumpItems ys ++ r' → xs = ys ∧ r = r'
  | [], [], _, _, _, _, h => ⟨rfl, List.append_cancel_left h⟩
  | [], y :: ys, _, _, _, _, h => by simp [dumpItems] at h
  | x :: xs, [], _, _, _, _, h => by simp [dumpItems] at h
  | x :: xs, y :: ys, r, r', hv, hw, h => by
    simp only [dumpItems, List.cons_append, List.append_assoc, List.cons.injEq, true_and] at h
    obtain ⟨rfl, h'⟩ := dump_append x y hv.1 hw.1 (stops_items _ _) (stops_items _ _) h
    obtain ⟨rfl, rfl⟩ := dumpItems_append xs ys hv.2 hw.2 h'
    exact ⟨rfl, rfl⟩

theorem dumpMembers_append : ∀ (kvs lws : List (PyStr × Json)) {r r' : PyStr},
    ExactMembers kvs → ExactMembers lws →
    dumpMembers kvs ++ r = dumpMembers lws ++ r' → kvs = lws ∧ r = r'
  | [], [], _, _, _, _, h => ⟨rfl, List.append_cancel_left h⟩
  | [], y :: ys, _, _, _, _, h => by simp [dumpMembers] at h
  | x :: xs, [], _, _, _, _, h => by simp [dumpMembers] at h
  | (k, x) :: kvs, (l, y) :: lws, r, r', hv, hw, h => by
    simp only [dumpMembers, List.cons_append, List.append_assoc, List.cons.injEq, true_and] at h
    obtain ⟨rfl, h'⟩ := quote_append h
    obtain ⟨rfl, h''⟩ := dump_append x y hv.1 hw.1 (stops_members _ _) (stops_members _ _)
      (List.cons.inj h').2
    obtain ⟨rfl, rfl⟩ := dumpMembers_append kvs lws hv.2 hw.2 h''
    exact ⟨rfl, rfl⟩

end

theorem dump_injective {v w : Json} (hv : v.Exact) (hw : w.Exact) (h : v.dump = w.dump) :
    v = w := by
  have hnil : Stops [] := by simp [Stops]
  have happ : v.dump ++ [] = w.dump ++ [] := by rw [h]
  exact (dump_append v w hv hw hnil hnil happ).1

theorem sortKeysList_eq (xs : List Json) : sortKeysList xs = xs.map sortKeys := by
  induction xs with
  | nil => rfl
  | cons x xs ih => rw [sortKeysList, ih, List.map_cons]

theorem sortKeysMembers_eq (kvs : List (PyStr × Json)) :
    sortKeysMembers kvs = kvs.map fun kv => (kv.1, kv.2.sortKeys) := by
  induction kvs with
  | nil => rfl
  | cons kv kvs ih => rw [sortKeysMembers, ih, List.map_cons]

theorem exactMembers_iff (kvs : List (PyStr × Json)) :
    ExactMembers kvs ↔ ∀ kv ∈ kvs, kv.2.Exact := by
  induction kvs with
  | nil => simp [ExactMembers]
  | cons kv kvs ih => simp [ExactMembers, ih]

theorem mem_sortMembers {kvs : List (PyStr × Json)} {kv : PyStr × Json} :
    kv ∈ sortMembers kvs ↔ kv ∈ kvs := List.mem_insertionSort _

mutual

theorem exact_sortKeys : ∀ v : Json, v.Exact → v.sortKeys.Exact
  | null, _ | bool _, _ | int _, _ | str _, _ => trivial
  | float _, h => h
  | arr xs, h => exact_sortKeysList xs h
  | obj kvs, h => by
    have hs := exact_sortKeysMembers kvs h
    rw [exactMembers_iff] at hs
    rw [sortKeys, Exact, exactMembers_iff]
    exact fun kv hkv => hs kv (mem_sortMembers.mp hkv)

theorem exact_sortKeysList : ∀ xs : List Json, ExactList xs → ExactList (sortKeysList xs)
  | [], _ => trivial
  | x :: xs, h => ⟨exact_sortKeys x h.1, exact_sortKeysList xs h.2⟩

theorem exact_sortKeysMembers : ∀ kvs : List (PyStr × Json),
    ExactMembers kvs → ExactMembers (sortKeysMembers kvs)
  | [], _ => trivial
  | (_, x) :: kvs, h => ⟨exact_sortKeys x h.1, exact_sortKeysMembers kvs h.2⟩

end

/-- Two sorted lists of members with distinct keys and the same members are equal. -/
theorem sortMembers_eq {kvs lws : List (PyStr × Json)} (hk : (kvs.map Prod.fst).Nodup)
    (h : kvs.Perm lws) : sortMembers kvs = sortMembers lws := by
  have hp : (sortMembers kvs).Perm (sortMembers lws) :=
    (List.perm_insertionSort _ _).trans (h.trans (List.perm_insertionSort _ _).symm)
  apply hp.eq_of_pairwise _ (List.pairwise_insertionSort _ _) (List.pairwise_insertionSort _ _)
  intro a b ha hb hab hba
  exact List.inj_on_of_nodup_map hk (mem_sortMembers.mp ha)
    (h.mem_iff.mpr (mem_sortMembers.mp hb)) (le_antisymm hab hba)

theorem keys_sortKeysMembers (kvs : List (PyStr × Json)) :
    (sortKeysMembers kvs).map Prod.fst = kvs.map Prod.fst := by
  rw [sortKeysMembers_eq, List.map_map]
  rfl

/-- Two objects are equal up to the order of members when they agree under every key. -/
theorem sortKeys_obj_eq_iff {kvs lws : List (PyStr × Json)} (hk : (kvs.map Prod.fst).Nodup)
    (hl : (lws.map Prod.fst).Nodup) :
    (obj kvs).sortKeys = (obj lws).sortKeys ↔
      ∀ k, (kvs.lookup k).map sortKeys = (lws.lookup k).map sortKeys := by
  have hk' : ((sortKeysMembers kvs).map Prod.fst).Nodup := by rwa [keys_sortKeysMembers]
  have hl' : ((sortKeysMembers lws).map Prod.fst).Nodup := by rwa [keys_sortKeysMembers]
  have hlook : ∀ (ms : List (PyStr × Json)) (k : PyStr),
      (ms.lookup k).map sortKeys = (sortKeysMembers ms).lookup k := by
    intro ms k
    rw [sortKeysMembers_eq, lookup_map]
  simp only [hlook, sortKeys, Json.obj.injEq]
  constructor
  · intro h k
    apply Option.ext
    intro x
    rw [lookup_eq_some_iff hk', lookup_eq_some_iff hl', ← mem_sortMembers, h, mem_sortMembers]
  · intro h
    apply sortMembers_eq hk'
    rw [List.perm_ext_iff_of_nodup (List.Nodup.of_map _ hk') (List.Nodup.of_map _ hl')]
    rintro ⟨k, x⟩
    rw [← lookup_eq_some_iff hk', ← lookup_eq_some_iff hl', h k]

end Json

end Python
