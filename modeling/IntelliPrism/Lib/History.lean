import Mathlib.Data.List.Nodup

/-!
# Values that move on from version to version

What a store has held: a value under every version it stood at, the newest first.  Versions only move on,
so a version names one value for good.

* `History.Held.unique` — **a version names one value**, and `History.heldAt` looks it up;
* `History.move` — the store moves on to a later version;
* `History.Continues` — a later state of the same store still knows every version it stood at.
-/

namespace IntelliPrism.Lib

/-- A value under a version, and those before it. -/
@[ext] structure History (ν α : Type*) [LT ν] where
  version : ν
  value : α
  past : List (ν × α)
  forward : ((version, value) :: past).Pairwise fun later earlier => earlier.1 < later.1

namespace History

section Basic

variable {ν α : Type*} [LT ν] (h : History ν α)

/-- A store that has only ever stood at one version. -/
def start (v : ν) (a : α) : History ν α := ⟨v, a, [], List.pairwise_singleton _ _⟩

/-- Everything held, the newest first. -/
def entries : List (ν × α) := (h.version, h.value) :: h.past

/-- The store held this value at this version. -/
def Held (v : ν) (a : α) : Prop := (v, a) ∈ h.entries

/-- What the store held at a version, when it stood at it. -/
def heldAt [DecidableEq ν] (v : ν) : Option α :=
  (h.entries.find? fun e => e.1 = v).map Prod.snd

theorem held_now : h.Held h.version h.value := List.mem_cons_self

theorem lt_of_mem_past {e : ν × α} (he : e ∈ h.past) : e.1 < h.version :=
  (List.pairwise_cons.mp h.forward).1 e he

/-- Moving on keeps what was held. -/
structure Continues (later : History ν α) [LE ν] : Prop where
  version : h.version ≤ later.version
  held : ∀ v a, h.Held v a → later.Held v a

end Basic

section Order

variable {ν α : Type*} [LT ν] [LE ν] [Std.LawfulOrderLT ν]

theorem nodup_versions (h : History ν α) : (h.entries.map Prod.fst).Nodup := by
  refine List.pairwise_map.mpr (h.forward.imp ?_)
  intro later earlier hlt heq
  rw [heq] at hlt
  exact Std.lt_irrefl hlt

/-- **A version names one value.** -/
theorem Held.unique {h : History ν α} {v : ν} {a b : α} (ha : h.Held v a) (hb : h.Held v b) : a = b :=
  (Prod.mk.inj (List.inj_on_of_nodup_map h.nodup_versions ha hb rfl)).2

theorem heldAt_eq_some_iff [DecidableEq ν] {h : History ν α} {v : ν} {a : α} :
    h.heldAt v = some a ↔ h.Held v a := by
  constructor
  · intro hat
    obtain ⟨e, hfind, rfl⟩ := Option.map_eq_some_iff.mp hat
    have hv : e.1 = v := by simpa using List.find?_some hfind
    rw [← hv]
    exact List.mem_of_find?_eq_some hfind
  · intro hheld
    obtain ⟨e, hfind⟩ : ∃ e, h.entries.find? (fun e => e.1 = v) = some e :=
      Option.isSome_iff_exists.mp (List.find?_isSome.mpr ⟨(v, a), hheld, decide_eq_true rfl⟩)
    have hv : e.1 = v := by simpa using List.find?_some hfind
    have he : h.Held v e.2 := hv ▸ List.mem_of_find?_eq_some hfind
    rw [heldAt, hfind, Option.map_some, he.unique hheld]

end Order

section Linear

variable {ν α : Type*} [LT ν] [LE ν] [Std.IsLinearOrder ν]

theorem Continues.refl (h : History ν α) : h.Continues h := ⟨Std.le_refl _, fun _ _ hheld => hheld⟩

variable [Std.LawfulOrderLT ν]

theorem Held.le {h : History ν α} {v : ν} {a : α} (hheld : h.Held v a) : v ≤ h.version := by
  rcases List.mem_cons.mp hheld with heq | hpast
  · rw [(Prod.mk.inj heq).1]
    exact Std.le_refl _
  · exact Std.le_of_lt (h.lt_of_mem_past hpast)

/-- The store moves on to a version past the one it stood at. -/
def move (h : History ν α) (v : ν) (a : α) (hv : h.version < v) : History ν α where
  version := v
  value := a
  past := h.entries
  forward := by
    refine List.pairwise_cons.mpr ⟨?_, h.forward⟩
    intro e he
    rcases List.mem_cons.mp he with rfl | hpast
    · exact hv
    · exact Std.lt_trans (h.lt_of_mem_past hpast) hv

theorem move_continues (h : History ν α) (v : ν) (a : α) (hv : h.version < v) :
    h.Continues (h.move v a hv) :=
  ⟨Std.le_of_lt hv, fun _ _ hheld => List.mem_cons_of_mem _ hheld⟩

end Linear

end History

end IntelliPrism.Lib
