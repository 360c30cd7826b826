import Mathlib.Data.List.Nodup
import Mathlib.Data.Set.Basic

/-! # Tables with a unique key

A table is a list of rows in insertion order no two of which share a key. The
operations are those of a relational store: insert or ignore, insert or merge
into the conflicting row, insert or replace, update and delete.
-/

namespace Tables

variable {α κ : Type*}

structure Table (key : α → κ) where
  rows : List α
  nodup : (rows.map key).Nodup

namespace Table

variable {key : α → κ}

instance : Membership α (Table key) := ⟨fun t a => a ∈ t.rows⟩

theorem mem_def {t : Table key} {a : α} : a ∈ t ↔ a ∈ t.rows := Iff.rfl

theorem eq_of_key {t : Table key} {a b : α} (ha : a ∈ t) (hb : b ∈ t) (h : key a = key b) :
    a = b :=
  List.inj_on_of_nodup_map t.nodup ha hb h

def empty : Table key := ⟨[], List.nodup_nil⟩

@[simp] theorem not_mem_empty {a : α} : a ∉ (empty : Table key) := List.not_mem_nil

/-- Delete the rows that satisfy `p`. -/
def deleteWhere (t : Table key) (p : α → Bool) : Table key where
  rows := t.rows.filter fun a => !p a
  nodup := t.nodup.sublist (List.filter_sublist.map key)

@[simp] theorem mem_deleteWhere {t : Table key} {p : α → Bool} {a : α} :
    a ∈ t.deleteWhere p ↔ a ∈ t ∧ p a = false := by
  simp [deleteWhere, mem_def]

/-- Apply `f`, which keeps the key, to the rows that satisfy `p`. -/
def updateWhere (t : Table key) (p : α → Bool) (f : α → α) (hf : ∀ a, key (f a) = key a) :
    Table key where
  rows := t.rows.map fun a => if p a then f a else a
  nodup := by
    have h : ∀ a, key (if p a then f a else a) = key a := by
      intro a; split_ifs <;> simp [hf]
    simpa only [List.map_map, Function.comp_def, h] using t.nodup

@[simp] theorem mem_updateWhere {t : Table key} {p : α → Bool} {f : α → α}
    {hf : ∀ a, key (f a) = key a} {a : α} :
    a ∈ t.updateWhere p f hf ↔ ∃ b ∈ t, a = if p b then f b else b := by
  simp only [updateWhere, mem_def, List.mem_map, eq_comm]

variable [DecidableEq κ]

def find? (t : Table key) (k : κ) : Option α := t.rows.find? fun a => key a = k

theorem find?_eq_some {t : Table key} {k : κ} {a : α} :
    t.find? k = some a ↔ a ∈ t ∧ key a = k := by
  constructor
  · intro h
    exact ⟨List.mem_of_find?_eq_some h, by simpa using List.find?_some h⟩
  · rintro ⟨ha, rfl⟩
    have hs : (t.find? (key a)).isSome := by
      simpa [find?] using ⟨a, ha, rfl⟩
    obtain ⟨b, h⟩ := Option.isSome_iff_exists.mp hs
    have hb : key b = key a := by simpa using List.find?_some h
    rw [h, eq_of_key (List.mem_of_find?_eq_some h) ha hb]

theorem find?_eq_none {t : Table key} {k : κ} : t.find? k = none ↔ ∀ a ∈ t, key a ≠ k := by
  simp [find?, mem_def]

theorem find?_isSome {t : Table key} {k : κ} : (t.find? k).isSome ↔ ∃ a ∈ t, key a = k := by
  simp [find?, mem_def]

/-- `INSERT OR IGNORE`. -/
def insertIgnore (t : Table key) (a : α) : Table key :=
  if h : ∃ b ∈ t.rows, key b = key a then t
  else ⟨t.rows ++ [a], by
    push Not at h
    simpa [List.nodup_append] using ⟨t.nodup, fun b hb => h b hb⟩⟩

theorem mem_insertIgnore {t : Table key} {a b : α} :
    b ∈ t.insertIgnore a ↔ b ∈ t ∨ b = a ∧ ∀ c ∈ t, key c ≠ key a := by
  unfold insertIgnore
  split_ifs with h
  · obtain ⟨c, hc, hk⟩ := h
    exact ⟨Or.inl, fun hb => hb.elim id fun hb => absurd hk (hb.2 c hc)⟩
  · push Not at h
    simp only [mem_def, List.mem_append, List.mem_singleton]
    exact or_congr Iff.rfl ⟨fun hb => ⟨hb, h⟩, And.left⟩

theorem prefix_insertIgnore {t : Table key} {a : α} : t.rows <+: (t.insertIgnore a).rows := by
  unfold insertIgnore
  split_ifs
  · exact List.prefix_rfl
  · exact List.prefix_append _ _

/-- `INSERT OR IGNORE` of several rows. -/
def insertAll (t : Table key) (as : List α) : Table key := as.foldl insertIgnore t

theorem mem_insertAll_of_mem {t : Table key} {as : List α} {b : α} (h : b ∈ t) :
    b ∈ t.insertAll as := by
  induction as generalizing t with
  | nil => exact h
  | cons a as ih => exact ih (mem_insertIgnore.mpr (Or.inl h))

theorem mem_or_mem_of_mem_insertAll {t : Table key} {as : List α} {b : α}
    (h : b ∈ t.insertAll as) : b ∈ t ∨ b ∈ as := by
  induction as generalizing t with
  | nil => exact Or.inl h
  | cons a as ih =>
    rcases ih h with hb | hb
    · rcases mem_insertIgnore.mp hb with hb | ⟨rfl, -⟩
      · exact Or.inl hb
      · exact Or.inr List.mem_cons_self
    · exact Or.inr (List.mem_cons_of_mem _ hb)

theorem exists_mem_insertAll {t : Table key} {as : List α} {a : α} (h : a ∈ as) :
    ∃ b ∈ t.insertAll as, key b = key a := by
  induction as generalizing t with
  | nil => exact absurd h List.not_mem_nil
  | cons c as ih =>
    rcases List.mem_cons.mp h with rfl | h
    · by_cases hex : ∃ b ∈ t, key b = key a
      · obtain ⟨b, hb, hk⟩ := hex
        have hb' : b ∈ t.insertIgnore a := mem_insertIgnore.mpr (Or.inl hb)
        exact ⟨b, mem_insertAll_of_mem (t := t.insertIgnore a) hb', hk⟩
      · push Not at hex
        have ha : a ∈ t.insertIgnore a := mem_insertIgnore.mpr (Or.inr ⟨rfl, hex⟩)
        exact ⟨a, mem_insertAll_of_mem (t := t.insertIgnore a) ha, rfl⟩
    · exact ih h

theorem insertIgnore_eq_self {t : Table key} {a : α} (h : ∃ b ∈ t, key b = key a) :
    t.insertIgnore a = t := dif_pos h

theorem insertAll_append {t : Table key} {as bs : List α} :
    t.insertAll (as ++ bs) = (t.insertAll as).insertAll bs := List.foldl_append

theorem insertAll_eq_self_iff {t : Table key} {as : List α} :
    t.insertAll as = t ↔ ∀ a ∈ as, ∃ b ∈ t, key b = key a := by
  constructor
  · intro h a ha
    have hmem := exists_mem_insertAll (t := t) ha
    rwa [h] at hmem
  · intro h
    induction as with
    | nil => rfl
    | cons a as ih =>
      obtain ⟨ha, has⟩ := List.forall_mem_cons.mp h
      rw [insertAll, List.foldl_cons, insertIgnore_eq_self ha]
      exact ih has

theorem mem_insertAll_of_nodup {t : Table key} {as : List α} (h : (as.map key).Nodup) {b : α} :
    b ∈ t.insertAll as ↔ b ∈ t ∨ b ∈ as ∧ ∀ c ∈ t, key c ≠ key b := by
  induction as generalizing t with
  | nil => simp [insertAll]
  | cons a as ih =>
    rw [List.map_cons, List.nodup_cons] at h
    have hne : ∀ b ∈ as, key a ≠ key b := fun b hb he => h.1 (he ▸ List.mem_map_of_mem hb)
    rw [insertAll, List.foldl_cons, ← insertAll, ih h.2, mem_insertIgnore, List.mem_cons]
    constructor
    · rintro ((hb | ⟨rfl, hb⟩) | ⟨hb, hnew⟩)
      · exact Or.inl hb
      · exact Or.inr ⟨Or.inl rfl, hb⟩
      · exact Or.inr ⟨Or.inr hb, fun c hc => hnew c (mem_insertIgnore.mpr (Or.inl hc))⟩
    · rintro (hb | ⟨rfl | hb, hnew⟩)
      · exact Or.inl (Or.inl hb)
      · exact Or.inl (Or.inr ⟨rfl, hnew⟩)
      · refine Or.inr ⟨hb, fun c hc => ?_⟩
        rcases mem_insertIgnore.mp hc with hc | ⟨rfl, -⟩
        · exact hnew c hc
        · exact hne b hb

/-- `INSERT … ON CONFLICT DO UPDATE`: the conflicting row is merged with the new one in its
place. -/
def upsert (t : Table key) (merge : α → α → α) (hm : ∀ old a, key (merge old a) = key a)
    (a : α) : Table key :=
  if h : ∃ b ∈ t.rows, key b = key a then
    ⟨t.rows.map fun b => if key b = key a then merge b a else b, by
      have hk : ∀ b, key (if key b = key a then merge b a else b) = key b := by
        intro b
        split_ifs with hb
        · rw [hm, hb]
        · rfl
      simpa only [List.map_map, Function.comp_def, hk] using t.nodup⟩
  else ⟨t.rows ++ [a], by
    push Not at h
    simpa [List.nodup_append] using ⟨t.nodup, fun b hb => h b hb⟩⟩

theorem mem_upsert {t : Table key} {merge : α → α → α} {hm : ∀ old a, key (merge old a) = key a}
    {a b : α} :
    b ∈ t.upsert merge hm a ↔ (b ∈ t ∧ key b ≠ key a) ∨
      (∃ c ∈ t, key c = key a ∧ b = merge c a) ∨ (b = a ∧ ∀ c ∈ t, key c ≠ key a) := by
  unfold upsert
  split_ifs with h
  · obtain ⟨c, hc, hk⟩ := h
    simp only [mem_def, List.mem_map]
    constructor
    · rintro ⟨d, hd, rfl⟩
      split_ifs with hda
      · exact Or.inr (Or.inl ⟨d, hd, hda, rfl⟩)
      · exact Or.inl ⟨hd, hda⟩
    · rintro (⟨hb, hba⟩ | ⟨d, hd, hda, rfl⟩ | ⟨rfl, hn⟩)
      · exact ⟨b, hb, if_neg hba⟩
      · exact ⟨d, hd, if_pos hda⟩
      · exact absurd hk (hn c hc)
  · push Not at h
    simp only [mem_def, List.mem_append, List.mem_singleton]
    constructor
    · rintro (hb | rfl)
      · exact Or.inl ⟨hb, h b hb⟩
      · exact Or.inr (Or.inr ⟨rfl, h⟩)
    · rintro (⟨hb, _⟩ | ⟨c, hc, hk, _⟩ | ⟨rfl, _⟩)
      · exact Or.inl hb
      · exact absurd hk (h c hc)
      · exact Or.inr rfl

theorem find?_upsert_of_ne {t : Table key} {merge : α → α → α}
    {hm : ∀ old a, key (merge old a) = key a} {a : α} {k : κ} (hk : k ≠ key a) :
    (t.upsert merge hm a).find? k = t.find? k := by
  have hmem : ∀ b, b ∈ t.upsert merge hm a ∧ key b = k ↔ b ∈ t ∧ key b = k := by
    intro b
    rw [mem_upsert]
    constructor
    · rintro ⟨⟨hb, -⟩ | ⟨c, -, -, rfl⟩ | ⟨rfl, -⟩, rfl⟩
      · exact ⟨hb, rfl⟩
      · exact absurd (hm c a) hk
      · exact absurd rfl hk
    · rintro ⟨hb, rfl⟩
      exact ⟨Or.inl ⟨hb, hk⟩, rfl⟩
  ext b
  rw [find?_eq_some, find?_eq_some]
  exact hmem b

/-- Where the new row replaces the conflicting one, the row is there afterwards. -/
theorem mem_upsert_new {t : Table key} {a : α} :
    a ∈ t.upsert (fun _ new => new) (fun _ _ => rfl) a := by
  apply mem_upsert.mpr
  by_cases hex : ∃ c ∈ t, key c = key a
  · obtain ⟨c, hc, hk⟩ := hex
    exact Or.inr (Or.inl ⟨c, hc, hk, rfl⟩)
  · push Not at hex
    exact Or.inr (Or.inr ⟨rfl, hex⟩)

theorem upsert_eq_self_iff {t : Table key} {a : α} :
    t.upsert (fun _ new => new) (fun _ _ => rfl) a = t ↔ a ∈ t := by
  constructor
  · intro h
    rw [← h]
    exact mem_upsert_new
  · intro ha
    have hsame : ∀ b ∈ t.rows, (if key b = key a then a else b) = b := by
      intro b hb
      split_ifs with hk
      · exact eq_of_key ha hb hk.symm
      · rfl
    obtain ⟨rows, hn⟩ := t
    rw [upsert, dif_pos ⟨a, ha, rfl⟩, mk.injEq]
    exact (List.map_congr_left hsame).trans (List.map_id rows)

/-- `INSERT OR REPLACE`: rows that conflict with the new one are deleted first. -/
def insertReplace (t : Table key) (conflict : α → Bool) (a : α) : Table key where
  rows := (t.rows.filter fun b => !conflict b && decide (key b ≠ key a)) ++ [a]
  nodup := by
    have h : ((t.rows.filter fun b => !conflict b && decide (key b ≠ key a)).map key).Nodup :=
      t.nodup.sublist (List.filter_sublist.map key)
    rw [List.map_append, List.nodup_append]
    refine ⟨h, by simp, ?_⟩
    rintro _ hk _ hl rfl
    obtain ⟨b, hb, he⟩ := List.mem_map.mp hk
    have hne : conflict b = false ∧ key b ≠ key a := by simpa using (List.mem_filter.mp hb).2
    exact hne.2 (by simpa [← he] using hl)

@[simp] theorem mem_insertReplace {t : Table key} {conflict : α → Bool} {a b : α} :
    b ∈ t.insertReplace conflict a ↔ (b ∈ t ∧ conflict b = false ∧ key b ≠ key a) ∨ b = a := by
  simp [insertReplace, mem_def]

end Table

end Tables
