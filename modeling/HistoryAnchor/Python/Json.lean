import HistoryAnchor.Python.Text
import Mathlib.Data.List.Lex
import Mathlib.Data.List.Sort
import Mathlib.Data.Rat.Init

/-! # JSON values

`Json` is what `json.loads` returns. An object is the list of its members; `WF`
says that no object repeats a key, as in a `dict`. `sortKeys` and `dump` are the
two halves of `json.dumps` with sorted keys.
-/

namespace Python

/-- A JSON value; a float carries its number, or nothing when it is not finite. -/
inductive Json
  | null
  | bool (b : Bool)
  | int (n : ℤ)
  | float (q : Option ℚ)
  | str (s : PyStr)
  | arr (xs : List Json)
  | obj (kvs : List (PyStr × Json))

namespace Json

/-- `dict.get`; a value that is no object has no members. -/
def get : Json → PyStr → Option Json
  | obj kvs, k => kvs.lookup k
  | _, _ => none

/-- `dict.get` with a default. -/
def getD (v : Json) (k : PyStr) (d : Json) : Json := (v.get k).getD d

def text (v : Json) (k : PyStr) : PyStr :=
  match v.get k with
  | some (str s) => s
  | _ => []

def strValue : Json → PyStr
  | str s => s
  | _ => []

def items (v : Json) (k : PyStr) : List Json :=
  match v.get k with
  | some (arr xs) => xs
  | _ => []

def nat (v : Json) (k : PyStr) : ℕ :=
  match v.get k with
  | some (int n) => n.toNat
  | _ => 0

/-- `value == s` for a string. -/
def eqStr : Json → PyStr → Bool
  | str t, s => t = s
  | _, _ => false

/-- `value == n` for an integer; `True` and `1.0` equal `1`. -/
def eqInt : Json → ℤ → Bool
  | int m, n => m = n
  | bool b, n => b.toNat = n
  | float (some q), n => q = n
  | _, _ => false

/-- The number of an `int`; a `bool` is an `int`. -/
def asInt : Json → Option ℤ
  | int n => some n
  | bool b => some b.toNat
  | _ => none

def hashable : Json → Bool
  | arr _ | obj _ => false
  | _ => true

/-- `isinstance(value, int)` and not a `bool`, at least zero. -/
def isNatural : Json → Bool
  | int n => 0 ≤ n
  | _ => false

/-- `set(value) == names` for an object. -/
def hasFields (kvs : List (PyStr × Json)) (names : List PyStr) : Bool :=
  kvs.all (fun kv => kv.1 ∈ names) && names.all fun k => k ∈ kvs.map Prod.fst

/-- `value == expected` for a dictionary of strings. -/
def eqTexts (v : Json) (expected : List (PyStr × PyStr)) : Bool :=
  match v with
  | obj kvs => hasFields kvs (expected.map Prod.fst) &&
      expected.all fun (k, s) => (kvs.lookup k).any (eqStr · s)
  | _ => false

/-- `dict.pop(k, None)` on a copy. -/
def erase (k : PyStr) : Json → Json
  | obj kvs => obj (kvs.filter fun kv => kv.1 ≠ k)
  | v => v

mutual

def WF : Json → Prop
  | arr xs => WFList xs
  | obj kvs => (kvs.map Prod.fst).Nodup ∧ WFMembers kvs
  | _ => True

def WFList : List Json → Prop
  | [] => True
  | x :: xs => x.WF ∧ WFList xs

def WFMembers : List (PyStr × Json) → Prop
  | [] => True
  | (_, x) :: kvs => x.WF ∧ WFMembers kvs

end

mutual

def Exact : Json → Prop
  | float _ => False
  | arr xs => ExactList xs
  | obj kvs => ExactMembers kvs
  | _ => True

def ExactList : List Json → Prop
  | [] => True
  | x :: xs => x.Exact ∧ ExactList xs

def ExactMembers : List (PyStr × Json) → Prop
  | [] => True
  | (_, x) :: kvs => x.Exact ∧ ExactMembers kvs

end

def sortMembers (kvs : List (PyStr × Json)) : List (PyStr × Json) :=
  kvs.insertionSort fun a b => a.1 ≤ b.1

mutual

/-- The value with the members of every object in the order of their keys. -/
def sortKeys : Json → Json
  | arr xs => arr (sortKeysList xs)
  | obj kvs => obj (sortMembers (sortKeysMembers kvs))
  | v => v

def sortKeysList : List Json → List Json
  | [] => []
  | x :: xs => x.sortKeys :: sortKeysList xs

def sortKeysMembers : List (PyStr × Json) → List (PyStr × Json)
  | [] => []
  | (k, x) :: kvs => (k, x.sortKeys) :: sortKeysMembers kvs

end

def shortEscapes : List (CodePoint × CodePoint) :=
  [(0x22, 0x22), (0x5C, 0x5C), (0x08, 0x62), (0x0C, 0x66), (0x0A, 0x6E), (0x0D, 0x72), (0x09, 0x74)]

/-- Checked escape by escape, not over all pairs of characters. -/
instance {p : CodePoint × CodePoint → Prop} [DecidablePred p] :
    Decidable (∀ e ∈ shortEscapes, p e) := List.decidableBAll p shortEscapes

/-- A character of a JSON string with `ensure_ascii=False`. -/
def escape (c : CodePoint) : PyStr :=
  match shortEscapes.lookup c with
  | some e => [0x5C, e]
  | none =>
    if c.val < 0x20 then [0x5C, 0x75, 0x30, 0x30, hexDigit (c.val / 16), hexDigit (c.val % 16)]
    else [c]

def quote (s : PyStr) : PyStr := 0x22 :: s.flatMap escape ++ [0x22]

mutual

/-- `json.dumps` with the separators `,` and `:`. A float has no text here: the encoder rejects
every float first. -/
def dump : Json → PyStr
  | null => "null"
  | bool true => "true"
  | bool false => "false"
  | int n => decimalInt n
  | float _ => []
  | str s => quote s
  | arr [] => [0x5B, 0x5D]
  | arr (x :: xs) => 0x5B :: (x.dump ++ dumpItems xs)
  | obj [] => [0x7B, 0x7D]
  | obj ((k, x) :: kvs) => 0x7B :: (quote k ++ 0x3A :: (x.dump ++ dumpMembers kvs))

def dumpItems : List Json → PyStr
  | [] => [0x5D]
  | x :: xs => 0x2C :: (x.dump ++ dumpItems xs)

def dumpMembers : List (PyStr × Json) → PyStr
  | [] => [0x7D]
  | (k, x) :: kvs => 0x2C :: (quote k ++ 0x3A :: (x.dump ++ dumpMembers kvs))

end

theorem items_ne_nil {v : Json} {k : PyStr} (h : v.items k ≠ []) :
    v.get k = some (.arr (v.items k)) := by
  unfold Json.items at h ⊢
  split at h
  · assumption
  · exact absurd rfl h

theorem get_of_text {v : Json} {k s : PyStr} (h : v.text k = s) (hs : s ≠ []) :
    v.get k = some (.str s) := by
  unfold Json.text at h
  split at h
  · rename_i t ht
    rw [ht, h]
  · exact absurd h.symm hs

theorem mem_of_lookup {α β : Type*} [BEq α] [LawfulBEq α] {l : List (α × β)} {a : α} {b : β}
    (h : l.lookup a = some b) : (a, b) ∈ l := by
  obtain ⟨l₁, l₂, rfl, -⟩ := List.lookup_eq_some_iff.mp h
  simp

theorem lookup_eq_some_iff {kvs : List (PyStr × Json)} (hk : (kvs.map Prod.fst).Nodup)
    {k : PyStr} {x : Json} : kvs.lookup k = some x ↔ (k, x) ∈ kvs := by
  refine ⟨mem_of_lookup, fun h => ?_⟩
  cases hl : kvs.lookup k with
  | none =>
    have hne := List.lookup_eq_none_iff.mp hl (k, x) h
    simp at hne
  | some y =>
    have he := List.inj_on_of_nodup_map hk (mem_of_lookup hl) h rfl
    rw [(Prod.mk.inj he).2]

theorem lookup_map (kvs : List (PyStr × Json)) (k : PyStr) (f : Json → Json) :
    (kvs.map fun kv => (kv.1, f kv.2)).lookup k = (kvs.lookup k).map f := by
  induction kvs with
  | nil => rfl
  | cons kv kvs ih =>
    obtain ⟨l, x⟩ := kv
    rw [List.map_cons, List.lookup_cons, List.lookup_cons, ih]
    cases k == l <;> simp

theorem lookup_filter_ne (kvs : List (PyStr × Json)) (k l : PyStr) :
    (kvs.filter fun kv => kv.1 ≠ k).lookup l = if l = k then none else kvs.lookup l := by
  induction kvs with
  | nil => simp
  | cons kv kvs ih =>
    obtain ⟨m, x⟩ := kv
    by_cases hm : m = k
    · subst hm
      rw [List.filter_cons_of_neg (by simp), ih, List.lookup_cons]
      split_ifs with hl
      · rfl
      · rw [beq_eq_false_iff_ne.mpr hl]
    · rw [List.filter_cons_of_pos (by simpa using hm), List.lookup_cons, List.lookup_cons, ih]
      by_cases hl : l = m
      · subst hl
        simp [hm]
      · rw [beq_eq_false_iff_ne.mpr hl]

@[simp] theorem get_obj (kvs : List (PyStr × Json)) (k : PyStr) :
    (obj kvs).get k = kvs.lookup k := rfl

theorem get_erase (v : Json) (k l : PyStr) :
    (v.erase k).get l = if l = k then none else v.get l := by
  cases v with
  | obj kvs => exact lookup_filter_ne kvs k l
  | _ => simp [erase, get]

theorem get_of_hasFields {kvs : List (PyStr × Json)} {names : List PyStr}
    (h : hasFields kvs names = true) {k : PyStr} (hk : k ∈ names) :
    ∃ x, (obj kvs).get k = some x := by
  simp only [hasFields, Bool.and_eq_true, List.all_eq_true, decide_eq_true_eq] at h
  obtain ⟨⟨l, x⟩, hx, rfl⟩ := List.mem_map.mp (h.2 k hk)
  cases hl : kvs.lookup l with
  | none =>
    have hne := List.lookup_eq_none_iff.mp hl _ hx
    simp at hne
  | some y => exact ⟨y, hl⟩

theorem mem_of_get_of_hasFields {kvs : List (PyStr × Json)} {names : List PyStr}
    (h : hasFields kvs names = true) {k : PyStr} {x : Json} (hx : (obj kvs).get k = some x) :
    k ∈ names := by
  simp only [hasFields, Bool.and_eq_true, List.all_eq_true, decide_eq_true_eq] at h
  exact h.1 _ (mem_of_lookup hx)

end Json

end Python
