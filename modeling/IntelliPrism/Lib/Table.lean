import Mathlib.Data.List.Nodup

/-!
# Tables: rows with a unique key

A table of a relational store is a list of rows, no two of them under one key.  The structure carries
that, so what reads a row by its key reads the only one there is.

* `Table.find` — the row under a key, with `find_eq_some` for what it means that there is one;
* `Table.insert` — a new row, refused where its key is taken;
* `Table.upsert` — a row written over the one that has its key;
* `Table.keep` — the rows a deletion leaves;
* `RowTable` — a table whose rows also have a row id of their own, which other tables refer to them by;
* `RowTable.Agrees` — two states of a table that say the same of every row id both have.
-/

namespace IntelliPrism.Lib

variable {α κ : Type} {key : α → κ}

/-- Rows, no two under one key. -/
@[ext] structure Table (key : α → κ) where
  rows : List α
  unique : (rows.map key).Nodup

namespace Table

instance [DecidableEq α] : DecidableEq (Table key) := fun _ _ => decidable_of_iff _ Table.ext_iff.symm

/-- A table without rows. -/
def empty : Table key := ⟨[], List.nodup_nil⟩

/-- Some row is under this key. -/
def Has (t : Table key) (k : κ) : Prop := ∃ a ∈ t.rows, key a = k

theorem has_of_mem {t : Table key} {a : α} (h : a ∈ t.rows) : t.Has (key a) := ⟨a, h, rfl⟩

instance [DecidableEq κ] (t : Table key) (k : κ) : Decidable (t.Has k) :=
  inferInstanceAs (Decidable (∃ a ∈ t.rows, key a = k))

/-- One key, one row. -/
theorem eq_of_key {t : Table key} {a b : α} (ha : a ∈ t.rows) (hb : b ∈ t.rows) (h : key a = key b) :
    a = b := List.inj_on_of_nodup_map t.unique ha hb h

theorem unique_append (t : Table key) {a : α} (h : ¬ t.Has (key a)) :
    ((t.rows ++ [a]).map key).Nodup := by
  rw [List.map_append, List.map_singleton, List.nodup_append]
  refine ⟨t.unique, List.nodup_singleton _, fun k hk k' hk' heq => h ?_⟩
  obtain ⟨b, hb, rfl⟩ := List.mem_map.mp hk
  rw [List.mem_singleton.mp hk'] at heq
  exact ⟨b, hb, heq⟩

section Operations

variable [DecidableEq κ] (t : Table key)

/-- The row under a key. -/
def find (k : κ) : Option α := t.rows.find? fun a => key a = k

/-- Adds a row, or refuses it where another has its key. -/
def insert (a : α) : Option (Table key) :=
  if h : t.Has (key a) then none
  else some ⟨t.rows ++ [a], t.unique_append h⟩

/-- Writes a row in the place of the one that has its key, or at the end where none has. -/
def upsert (a : α) : Table key :=
  if h : t.Has (key a) then
    ⟨t.rows.map fun b => if key b = key a then a else b, by
      have hsame : (t.rows.map fun b => if key b = key a then a else b).map key = t.rows.map key := by
        rw [List.map_map]
        apply List.map_congr_left
        intro b _
        show key (if key b = key a then a else b) = key b
        split
        · rename_i heq
          exact heq.symm
        · rfl
      rw [hsame]
      exact t.unique⟩
  else ⟨t.rows ++ [a], t.unique_append h⟩

variable {t}

/-- **The row under a key** is the one row there is. -/
theorem find_eq_some {k : κ} {a : α} : t.find k = some a ↔ a ∈ t.rows ∧ key a = k := by
  constructor
  · intro h
    exact ⟨List.mem_of_find?_eq_some h, by simpa using List.find?_some h⟩
  · rintro ⟨ha, rfl⟩
    have hsome : (t.find (key a)).isSome = true := List.find?_isSome.mpr ⟨a, ha, by simp⟩
    obtain ⟨b, hb⟩ := Option.isSome_iff_exists.mp hsome
    have hkey : key b = key a := by simpa using List.find?_some hb
    rw [hb, eq_of_key (List.mem_of_find?_eq_some hb) ha hkey]

/-- The rows under a key are the one there is, or none. -/
theorem filter_key (k : κ) : (t.rows.filter fun a => key a = k) = (t.find k).toList := by
  obtain ⟨rows, hunique⟩ := t
  show rows.filter _ = (rows.find? _).toList
  induction rows with
  | nil => rfl
  | cons a rows ih =>
    rw [List.map_cons, List.nodup_cons] at hunique
    rw [List.filter_cons, List.find?_cons]
    split
    · rename_i hk
      simp only [decide_eq_true_eq] at hk
      rw [decide_eq_true hk]
      -- no later row has the key of this one
      have hlater : (rows.filter fun a => key a = k) = [] := by
        refine List.filter_eq_nil_iff.mpr ?_
        intro b hb hbk
        exact hunique.1 (List.mem_map.mpr ⟨b, hb, (of_decide_eq_true hbk).trans hk.symm⟩)
      rw [hlater]
      rfl
    · rename_i hk
      rw [Bool.eq_false_iff.mpr hk]
      exact ih hunique.2

theorem insert_eq_some {a : α} {t' : Table key} (h : t.insert a = some t') :
    ¬ t.Has (key a) ∧ t'.rows = t.rows ++ [a] := by
  unfold insert at h
  split at h
  · cases h
  · rename_i hfresh
    cases h
    exact ⟨hfresh, rfl⟩

theorem has_insert {a : α} {t' : Table key} (h : t.insert a = some t') {k : κ} (hk : t.Has k) :
    t'.Has k := by
  obtain ⟨b, hb, hkey⟩ := hk
  refine ⟨b, ?_, hkey⟩
  rw [(insert_eq_some h).2]
  exact List.mem_append_left _ hb

theorem insert_eq_none {a : α} : t.insert a = none ↔ t.Has (key a) := by
  unfold insert
  split <;> simp_all

/-- What a key finds once a row is added at the end. -/
theorem find_of_append {t' : Table key} {a : α} (h : t'.rows = t.rows ++ [a]) (k : κ) :
    t'.find k = (t.find k).or (if key a = k then some a else none) := by
  rw [find, h, List.find?_append, find]
  by_cases hk : key a = k
  · simp [hk]
  · simp [hk]

theorem find_eq_none {k : κ} : t.find k = none ↔ ¬ t.Has k := by
  constructor
  · rintro h ⟨a, ha, hkey⟩
    rw [find_eq_some.mpr ⟨ha, hkey⟩] at h
    cases h
  · intro h
    cases hfind : t.find k with
    | none => rfl
    | some a => exact absurd ⟨a, find_eq_some.mp hfind⟩ h

theorem mem_upsert {a b : α} : b ∈ (t.upsert a).rows ↔ b = a ∨ b ∈ t.rows ∧ key b ≠ key a := by
  unfold upsert
  split
  · rename_i hhas
    obtain ⟨c, hc, hkey⟩ := hhas
    rw [List.mem_map]
    constructor
    · rintro ⟨d, hd, rfl⟩
      split
      · exact .inl rfl
      · rename_i hne
        exact .inr ⟨hd, hne⟩
    · rintro (rfl | ⟨hb, hne⟩)
      · exact ⟨c, hc, if_pos hkey⟩
      · exact ⟨b, hb, if_neg hne⟩
  · rename_i hfresh
    rw [List.mem_append, List.mem_singleton]
    constructor
    · rintro (hb | rfl)
      · exact .inr ⟨hb, fun heq => hfresh ⟨b, hb, heq⟩⟩
      · exact .inl rfl
    · rintro (rfl | hb)
      · exact .inr rfl
      · exact .inl hb.1

end Operations

/-- The rows that pass a test. -/
def keep (t : Table key) (p : α → Bool) : Table key :=
  ⟨t.rows.filter p, t.unique.sublist (List.filter_sublist.map key)⟩

@[simp] theorem mem_keep {t : Table key} {p : α → Bool} {a : α} :
    a ∈ (t.keep p).rows ↔ a ∈ t.rows ∧ p a = true := List.mem_filter

/-- Deleting the row under one key leaves every other. -/
theorem has_keep_ne [DecidableEq κ] {t : Table key} {k k' : κ} (h : t.Has k) (hne : k ≠ k') :
    (t.keep fun a => key a != k').Has k := by
  obtain ⟨a, ha, rfl⟩ := h
  exact ⟨a, mem_keep.mpr ⟨ha, bne_iff_ne.mpr hne⟩, rfl⟩

end Table

/-! ### Row ids -/

variable {ρ : Type} {row : α → ρ}

/-- A table whose rows also have a row id each, no two the same. -/
structure RowTable (row : α → ρ) (key : α → κ) extends Table key where
  rowUnique : (rows.map row).Nodup

namespace RowTable

/-- A table without rows. -/
def empty : RowTable row key := ⟨.empty, List.nodup_nil⟩

/-- The same rows as a table by their row ids. -/
def byRow (t : RowTable row key) : Table row := ⟨t.rows, t.rowUnique⟩

/-- Rows are told by their row ids as they are by their keys. -/
theorem row_eq_iff {t : RowTable row key} {a b : α} (ha : a ∈ t.rows) (hb : b ∈ t.rows) :
    row a = row b ↔ key a = key b := by
  constructor
  · intro h
    rw [Table.eq_of_key (t := t.byRow) ha hb h]
  · intro h
    rw [Table.eq_of_key ha hb h]

/-- Some row has this row id. -/
def HasRow (t : RowTable row key) (r : ρ) : Prop := t.byRow.Has r

instance [DecidableEq ρ] (t : RowTable row key) (r : ρ) : Decidable (t.HasRow r) :=
  inferInstanceAs (Decidable (t.byRow.Has r))

/-- The key of the row that has this row id. -/
theorem keyOf_eq_some [DecidableEq ρ] {t : RowTable row key} {r : ρ} {k : κ} :
    (t.byRow.find r).map key = some k ↔ ∃ a ∈ t.rows, row a = r ∧ key a = k := by
  rw [Option.map_eq_some_iff]
  constructor
  · intro ⟨a, hfind, hkey⟩
    obtain ⟨ha, hrow⟩ := Table.find_eq_some.mp hfind
    exact ⟨a, ha, hrow, hkey⟩
  · intro ⟨a, ha, hrow, hkey⟩
    exact ⟨a, Table.find_eq_some.mpr ⟨ha, hrow⟩, hkey⟩

/-- One key, one row id. -/
theorem keyOf_inj [DecidableEq ρ] {t : RowTable row key} {r r' : ρ} {k : κ}
    (h : (t.byRow.find r).map key = some k) (h' : (t.byRow.find r').map key = some k) : r = r' := by
  obtain ⟨a, ha, hrow, hkey⟩ := keyOf_eq_some.mp h
  obtain ⟨b, hb, hrow', hkey'⟩ := keyOf_eq_some.mp h'
  rw [← hrow, ← hrow', Table.eq_of_key ha hb (hkey.trans hkey'.symm)]

/-- Adds a row, or refuses it where another has its key or its row id. -/
def add [DecidableEq ρ] [DecidableEq κ] (t : RowTable row key) (a : α) : Option (RowTable row key) :=
  if h : t.Has (key a) then none
  else if hrow : t.HasRow (row a) then none
  else some ⟨⟨t.rows ++ [a], t.unique_append h⟩, t.byRow.unique_append hrow⟩

theorem add_eq_some [DecidableEq ρ] [DecidableEq κ] {t t' : RowTable row key} {a : α}
    (h : t.add a = some t') : ¬ t.HasRow (row a) ∧ t'.rows = t.rows ++ [a] := by
  unfold add at h
  split at h
  · cases h
  · split at h
    · cases h
    · rename_i hrow
      cases h
      exact ⟨hrow, rfl⟩

theorem add_eq_none [DecidableEq ρ] [DecidableEq κ] {t : RowTable row key} {a : α} :
    t.add a = none ↔ t.Has (key a) ∨ t.HasRow (row a) := by
  unfold add
  split
  · simp_all
  · split <;> simp_all

theorem hasRow_add [DecidableEq ρ] [DecidableEq κ] {t t' : RowTable row key} {a : α}
    (h : t.add a = some t') {r : ρ} (hr : t.HasRow r) : t'.HasRow r := by
  obtain ⟨b, hb, hrow⟩ := hr
  refine ⟨b, ?_, hrow⟩
  show b ∈ t'.rows
  rw [(add_eq_some h).2]
  exact List.mem_append_left _ hb

/-- The rows without the one that has this row id. -/
def without [DecidableEq ρ] (t : RowTable row key) (r : ρ) : RowTable row key :=
  ⟨t.keep fun a => row a != r, (t.byRow.keep fun a => row a != r).unique⟩

theorem mem_without [DecidableEq ρ] {t : RowTable row key} {r : ρ} {a : α} :
    a ∈ (t.without r).rows ↔ a ∈ t.rows ∧ row a ≠ r := by
  show a ∈ (t.toTable.keep _).rows ↔ _
  rw [Table.mem_keep, bne_iff_ne]

/-- What a key finds once the row that has this row id is gone. -/
theorem find_without [DecidableEq ρ] [DecidableEq κ] {t : RowTable row key} {a : α}
    (ha : a ∈ t.rows) (k : κ) :
    (t.without (row a)).find k = if k = key a then none else t.find k := by
  apply Option.ext
  intro b
  rw [Table.find_eq_some, mem_without]
  split
  · rename_i hk
    constructor
    · rintro ⟨⟨hb, hrow⟩, hkey⟩
      exact absurd (congrArg row (Table.eq_of_key hb ha (hkey.trans hk))) hrow
    · intro hb
      cases hb
  · rename_i hk
    rw [Table.find_eq_some]
    constructor
    · rintro ⟨⟨hb, -⟩, hkey⟩
      exact ⟨hb, hkey⟩
    · rintro ⟨hb, hkey⟩
      refine ⟨⟨hb, fun hrow => hk ?_⟩, hkey⟩
      rw [← hkey, Table.eq_of_key (t := t.byRow) hb ha hrow]

theorem hasRow_without [DecidableEq ρ] {t : RowTable row key} {r r' : ρ} (h : t.HasRow r)
    (hne : r ≠ r') : (t.without r').HasRow r := by
  obtain ⟨a, ha, rfl⟩ := h
  exact ⟨a, mem_without.mpr ⟨ha, hne⟩, rfl⟩

/-- The rows that pass a test. -/
def retain (t : RowTable row key) (p : α → Bool) : RowTable row key :=
  ⟨t.keep p, (t.byRow.keep p).unique⟩

theorem map_modified [DecidableEq ρ] {β : Type} (t : RowTable row key) (r : ρ) {f : α → α} {g : α → β}
    (hg : ∀ a, g (f a) = g a) :
    (t.rows.map fun a => if row a = r then f a else a).map g = t.rows.map g := by
  rw [List.map_map]
  apply List.map_congr_left
  intro a _
  show g (if row a = r then f a else a) = g a
  split
  · exact hg a
  · rfl

/-- The row that has this row id written over, under the same key and row id. -/
def modify [DecidableEq ρ] (t : RowTable row key) (r : ρ) (f : α → α) (hkey : ∀ a, key (f a) = key a)
    (hrow : ∀ a, row (f a) = row a) : RowTable row key where
  rows := t.rows.map fun a => if row a = r then f a else a
  unique := by
    rw [map_modified t r hkey]
    exact t.unique
  rowUnique := by
    rw [map_modified t r hrow]
    exact t.rowUnique

/-- The row that was written over, and the others. -/
theorem mem_modify [DecidableEq ρ] {t : RowTable row key} {r : ρ} {f : α → α}
    (hkey : ∀ a, key (f a) = key a) (hrow : ∀ a, row (f a) = row a) {a : α} :
    a ∈ (t.modify r f hkey hrow).rows ↔
      (∃ b ∈ t.rows, row b = r ∧ f b = a) ∨ a ∈ t.rows ∧ row a ≠ r := by
  show a ∈ t.rows.map _ ↔ _
  rw [List.mem_map]
  constructor
  · intro ⟨b, hb, hab⟩
    split at hab
    · rename_i hbr
      exact .inl ⟨b, hb, hbr, hab⟩
    · rename_i hbr
      rw [← hab]
      exact .inr ⟨hb, hbr⟩
  · intro h
    rcases h with ⟨b, hb, hbr, hab⟩ | ⟨ha, har⟩
    · exact ⟨b, hb, by rw [if_pos hbr, hab]⟩
    · exact ⟨a, ha, by rw [if_neg har]⟩

/-- The rows that pass a test which neither the row that was written over nor what it was passes. -/
theorem filter_modify [DecidableEq ρ] {t : RowTable row key} {r : ρ} {f : α → α}
    (hkey : ∀ a, key (f a) = key a) (hrow : ∀ a, row (f a) = row a) {p : α → Bool}
    (h : ∀ a ∈ t.rows, row a = r → p a = false ∧ p (f a) = false) :
    (t.modify r f hkey hrow).rows.filter p = t.rows.filter p := by
  show (t.rows.map fun a => if row a = r then f a else a).filter p = t.rows.filter p
  rw [List.filter_map]
  have hsame : t.rows.filter (p ∘ fun a => if row a = r then f a else a) = t.rows.filter p := by
    refine List.filter_congr ?_
    intro a ha
    show p (if row a = r then f a else a) = p a
    split
    · rename_i har
      rw [(h a ha har).1, (h a ha har).2]
    · rfl
  rw [hsame]
  refine (List.map_congr_left ?_).trans (List.map_id _)
  intro a ha
  obtain ⟨hmem, hp⟩ := List.mem_filter.mp ha
  refine if_neg ?_
  intro har
  rw [(h a hmem har).1] at hp
  cases hp

theorem hasRow_modify [DecidableEq ρ] {t : RowTable row key} {r r' : ρ} {f : α → α}
    {hkey : ∀ a, key (f a) = key a} {hrow : ∀ a, row (f a) = row a} (h : t.HasRow r') :
    (t.modify r f hkey hrow).HasRow r' := by
  obtain ⟨a, ha, rfl⟩ := h
  refine ⟨if row a = r then f a else a, List.mem_map.mpr ⟨a, ha, rfl⟩, ?_⟩
  split
  · exact hrow a
  · rfl

/-! ### Tables that say the same of a row -/

/-- A row id both tables have is the same row in both. -/
def Agrees (t t' : RowTable row key) : Prop := ∀ a ∈ t'.rows, t.HasRow (row a) → a ∈ t.rows

namespace Agrees

variable {t t' : RowTable row key}

theorem refl (t : RowTable row key) : t.Agrees t := fun _ ha _ => ha

/-- A new row has a row id that was free. -/
theorem add [DecidableEq ρ] [DecidableEq κ] {a : α} (h : t.add a = some t') : t.Agrees t' := by
  intro b hb hrow
  obtain ⟨hfree, hrows⟩ := add_eq_some h
  rw [hrows] at hb
  rcases List.mem_append.mp hb with hold | hnew
  · exact hold
  · rw [List.mem_singleton.mp hnew] at hrow
    exact absurd hrow hfree

theorem without [DecidableEq ρ] (t : RowTable row key) (r : ρ) : t.Agrees (t.without r) :=
  fun _ ha _ => (mem_without.mp ha).1

/-- **What is read by a row id both tables have** is the same in both. -/
theorem find_eq [DecidableEq ρ] (h : t.Agrees t') {r : ρ} (hr : t.HasRow r) (hr' : t'.HasRow r) :
    t'.byRow.find r = t.byRow.find r := by
  obtain ⟨a, ha, rfl⟩ := hr'
  have hfind : t'.byRow.find (row a) = some a := Table.find_eq_some.mpr ⟨ha, rfl⟩
  have hold : t.byRow.find (row a) = some a := Table.find_eq_some.mpr ⟨h a ha hr, rfl⟩
  rw [hfind, hold]

end Agrees

end RowTable

end IntelliPrism.Lib
