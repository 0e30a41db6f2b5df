import IntelliPrism.Plugins.Handlers
import Mathlib.Data.List.MinMax

/-!
# A store by checksums

The plugin tables refer to one another by row ids, and a chain names its plugins by checksums.  Here a store
is described by checksums alone, as a chain meets it, and so is what each statement does to it.

* `rowOf`, `entry`, `Held`, `HeldElsewhere`, `Runs` — where a checksum is stored, what is stored under it, and
  which chains hold and run it;
* `Refiled` — a row comes or goes that nothing refers to, which no hold and no rule notices;
* `insertWasm_new`, `insertOwner_new`, `deleteOwner_held`, `deleteUnowned_swept`, `insertRule_checked`, … — what
  each statement answers and leaves;
* `exec_place_held` — what placing a plugin comes to when nobody else is served in between;
* `mem_told`, `listPlugins_told` — what a list tells of, and in which order.
-/

namespace IntelliPrism.Plugins

open IntelliPrism.Core IntelliPrism.Lib
open IntelliPrism.Manage (StorageError)

/-! ### A store by checksums -/

namespace Store

variable (s : Store)

/-- The number of the row a checksum is stored in, and 0, which is no row's, where it is not. -/
def rowOf (c : Checksum) : ℕ := (s.plugins.find c).elim 0 fun p => p.rowId.get

/-- What is stored under a checksum: its kind, its size and since when. -/
def entry (c : Checksum) : Option (PluginKind × ℕ × Timestamp) :=
  (s.plugins.find c).map fun p => (p.kind, p.wasm.length, p.createdAt)

/-- A chain holds a plugin since a moment. -/
def Held (chain : Chain) (c : Checksum) (since : Timestamp) : Prop :=
  ∃ o ∈ s.owners.rows, o.chain = chain ∧ o.plugin.get = s.rowOf c ∧ o.createdAt = since

def HeldElsewhere (chain : Chain) (c : Checksum) : Prop :=
  ∃ o ∈ s.owners.rows, o.chain ≠ chain ∧ o.plugin.get = s.rowOf c

/-- A chain runs a plugin at a place. -/
def Runs (chain : Chain) (c : Checksum) (kind : PluginKind) (order : PluginOrder) : Prop :=
  ∃ r ∈ s.rules.rows, r.key = (chain, kind, order) ∧ r.plugin.get = s.rowOf c

variable {s} {c d : Checksum} {p : PluginRow} {chain : Chain}

theorem rowOf_of_find (h : s.plugins.find c = some p) : s.rowOf c = p.rowId.get := by
  rw [rowOf, h]
  rfl

theorem rowOf_of_none (h : s.plugins.find c = none) : s.rowOf c = 0 := by
  rw [rowOf, h]
  rfl

theorem entry_of_find (h : s.plugins.find c = some p) :
    s.entry c = some (p.kind, p.wasm.length, p.createdAt) := by
  rw [entry, h]
  rfl

theorem rowOf_pos_iff : 0 < s.rowOf c ↔ (s.entry c).isSome = true := by
  cases h : s.plugins.find c with
  | none => simp [rowOf, entry, h]
  | some p => simp [rowOf, entry, h, p.rowId.assigned]

/-- A row id is a checksum's where the row that has it is stored under the checksum. -/
theorem get_eq_rowOf_iff {row : RowId} :
    row.get = s.rowOf c ↔ ∃ p ∈ s.plugins.rows, p.rowId = row ∧ p.checksum = c := by
  constructor
  · intro hrow
    cases hfind : s.plugins.find c with
    | none =>
      rw [rowOf_of_none hfind] at hrow
      exact absurd row.assigned (by omega)
    | some p =>
      rw [rowOf_of_find hfind] at hrow
      obtain ⟨hp, hkey⟩ := Table.find_eq_some.mp hfind
      exact ⟨p, hp, RowId.ext hrow.symm, hkey⟩
  · rintro ⟨p, hp, rfl, hkey⟩
    rw [rowOf_of_find (Table.find_eq_some.mpr ⟨hp, hkey⟩)]

theorem eq_of_rowOf {row : RowId} (hc : row.get = s.rowOf c) (hd : row.get = s.rowOf d) : c = d := by
  obtain ⟨p, hp, hrow, rfl⟩ := get_eq_rowOf_iff.mp hc
  obtain ⟨q, hq, hrow', rfl⟩ := get_eq_rowOf_iff.mp hd
  rw [Table.eq_of_key (t := s.plugins.byRow) hp hq (hrow.trans hrow'.symm)]

theorem exists_rowOf {row : RowId} (h : s.plugins.HasRow row) : ∃ c, row.get = s.rowOf c := by
  obtain ⟨p, hp, hrow⟩ := h
  exact ⟨p.checksum, get_eq_rowOf_iff.mpr ⟨p, hp, hrow, rfl⟩⟩

theorem find_of_held {since : Timestamp} (h : s.Held chain c since) : ∃ p, s.plugins.find c = some p := by
  obtain ⟨o, -, -, hrow, -⟩ := h
  obtain ⟨p, hp, -, hkey⟩ := get_eq_rowOf_iff.mp hrow
  exact ⟨p, Table.find_eq_some.mpr ⟨hp, hkey⟩⟩

theorem owns_iff (h : s.plugins.find c = some p) : s.Owns chain p.rowId ↔ ∃ since, s.Held chain c since := by
  constructor
  · rintro ⟨o, ho, hkey⟩
    obtain ⟨hchain, hrow⟩ := Prod.mk.inj hkey
    refine ⟨o.createdAt, o, ho, hchain, ?_, rfl⟩
    rw [rowOf_of_find h, ← hrow]
  · rintro ⟨since, o, ho, hchain, hrow, -⟩
    refine ⟨o, ho, Prod.ext hchain (RowId.ext ?_)⟩
    rw [← rowOf_of_find h]
    exact hrow

theorem held_unique {since since' : Timestamp} (h : s.Held chain c since) (h' : s.Held chain c since') :
    since = since' := by
  obtain ⟨o, ho, hchain, hrow, rfl⟩ := h
  obtain ⟨o', ho', hchain', hrow', rfl⟩ := h'
  have hkey : o.key = o'.key := Prod.ext (hchain.trans hchain'.symm) (RowId.ext (hrow.trans hrow'.symm))
  rw [Table.eq_of_key ho ho' hkey]

theorem lt_nextRow (h : p ∈ s.plugins.rows) : p.rowId.get < s.nextRow.get :=
  Nat.lt_succ_of_le (List.le_max_of_le' 0 (List.mem_map_of_mem h) (Nat.le_refl p.rowId.get))

theorem rowOf_lt_nextRow (c : Checksum) : s.rowOf c < s.nextRow.get := by
  cases h : s.plugins.find c with
  | none =>
    rw [rowOf_of_none h]
    exact s.nextRow.assigned
  | some p =>
    rw [rowOf_of_find h]
    exact lt_nextRow (Table.find_eq_some.mp h).1

end Store

/-! ### A plugin comes or goes -/

/-- Between two stores the row of one checksum came or went, and no hold and no rule refers to it. -/
structure Refiled (s t : Store) (c : Checksum) (row : ℕ) (entry : Option (PluginKind × ℕ × Timestamp)) :
    Prop where
  tenants : t.tenants = s.tenants
  users : t.users = s.users
  owners : t.owners = s.owners
  rules : t.rules = s.rules
  rowOf : ∀ d, t.rowOf d = if d = c then row else s.rowOf d
  entry : ∀ d, t.entry d = if d = c then entry else s.entry d
  fresh : ∀ id : RowId, (∃ o ∈ s.owners.rows, o.plugin = id) ∨ (∃ r ∈ s.rules.rows, r.plugin = id) →
    id.get ≠ row ∧ id.get ≠ s.rowOf c

namespace Refiled

variable {s t : Store} {c : Checksum} {row : ℕ} {entry : Option (PluginKind × ℕ × Timestamp)}
  {chain : Chain}

theorem refers (h : Refiled s t c row entry) {id : RowId}
    (hid : (∃ o ∈ s.owners.rows, o.plugin = id) ∨ (∃ r ∈ s.rules.rows, r.plugin = id)) (d : Checksum) :
    id.get = t.rowOf d ↔ id.get = s.rowOf d := by
  rw [h.rowOf]
  split
  · rename_i hd
    obtain ⟨hrow, hc⟩ := h.fresh id hid
    rw [hd]
    exact ⟨fun heq => absurd heq hrow, fun heq => absurd heq hc⟩
  · rfl

theorem held_iff (h : Refiled s t c row entry) (d : Checksum) (since : Timestamp) :
    t.Held chain d since ↔ s.Held chain d since := by
  unfold Store.Held
  rw [h.owners]
  constructor
  · rintro ⟨o, ho, hchain, hrow, hsince⟩
    exact ⟨o, ho, hchain, (h.refers (.inl ⟨o, ho, rfl⟩) d).mp hrow, hsince⟩
  · rintro ⟨o, ho, hchain, hrow, hsince⟩
    exact ⟨o, ho, hchain, (h.refers (.inl ⟨o, ho, rfl⟩) d).mpr hrow, hsince⟩

theorem heldElsewhere_iff (h : Refiled s t c row entry) (d : Checksum) :
    t.HeldElsewhere chain d ↔ s.HeldElsewhere chain d := by
  unfold Store.HeldElsewhere
  rw [h.owners]
  constructor
  · rintro ⟨o, ho, hchain, hrow⟩
    exact ⟨o, ho, hchain, (h.refers (.inl ⟨o, ho, rfl⟩) d).mp hrow⟩
  · rintro ⟨o, ho, hchain, hrow⟩
    exact ⟨o, ho, hchain, (h.refers (.inl ⟨o, ho, rfl⟩) d).mpr hrow⟩

theorem runs_iff (h : Refiled s t c row entry) (d : Checksum) (kind : PluginKind) (order : PluginOrder) :
    t.Runs chain d kind order ↔ s.Runs chain d kind order := by
  unfold Store.Runs
  rw [h.rules]
  constructor
  · rintro ⟨r, hr, hkey, hrow⟩
    exact ⟨r, hr, hkey, (h.refers (.inr ⟨r, hr, rfl⟩) d).mp hrow⟩
  · rintro ⟨r, hr, hkey, hrow⟩
    exact ⟨r, hr, hkey, (h.refers (.inr ⟨r, hr, rfl⟩) d).mpr hrow⟩

end Refiled

/-- Between two stores the plugins stayed, and the tables they and the chains refer to. -/
structure Kept (s t : Store) : Prop where
  tenants : t.tenants = s.tenants
  users : t.users = s.users
  plugins : t.plugins = s.plugins

namespace Kept

variable {s t : Store}

theorem rowOf (h : Kept s t) (c : Checksum) : t.rowOf c = s.rowOf c := by
  rw [Store.rowOf, Store.rowOf, h.plugins]

theorem entry (h : Kept s t) (c : Checksum) : t.entry c = s.entry c := by
  rw [Store.entry, Store.entry, h.plugins]

theorem runs_iff (h : Kept s t) (hrules : t.rules = s.rules) {chain : Chain} {c : Checksum}
    {kind : PluginKind} {order : PluginOrder} : t.Runs chain c kind order ↔ s.Runs chain c kind order := by
  rw [Store.Runs, Store.Runs, hrules, h.rowOf]

end Kept

section Statements

variable {s : Store} {c : Checksum} {p : PluginRow} {x : Supply} {kind : PluginKind} {wasm : List UInt8}
  {owner : PluginOwner} {chain : Chain}

/-! ### The statements, by checksums -/

theorem insertWasm_found (h : s.plugins.find c = some p) (hkind : p.kind = kind) :
    s.insertWasm c x kind wasm = .ok (s, p.record) := by
  unfold Store.insertWasm
  rw [h]
  exact if_pos hkind

theorem insertWasm_conflict (h : s.plugins.find c = some p) (hkind : p.kind ≠ kind) :
    s.insertWasm c x kind wasm
      = .error (.conflict .plugin (shown c ++ " as a " ++ p.kind.name ++ " plugin")) := by
  unfold Store.insertWasm
  rw [h]
  exact if_neg hkind

/-- A row under a checksum that is not stored fits in at the next row id. -/
theorem exists_add (h : s.plugins.find p.checksum = none) (hrow : p.rowId = s.nextRow) :
    ∃ plugins, s.plugins.add p = some plugins ∧
      ∀ d, plugins.find d = if d = p.checksum then some p else s.plugins.find d := by
  have hadd : ∃ plugins, s.plugins.add p = some plugins := by
    unfold RowTable.add
    rw [dif_neg (Table.find_eq_none.mp h), dif_neg]
    · exact ⟨_, rfl⟩
    · rintro ⟨q, hq, heq⟩
      have hlt := Store.lt_nextRow hq
      rw [heq, hrow] at hlt
      exact Nat.lt_irrefl _ hlt
  obtain ⟨plugins, hadd⟩ := hadd
  refine ⟨plugins, hadd, fun d => ?_⟩
  rw [Table.find_of_append (RowTable.add_eq_some hadd).2]
  by_cases hd : d = p.checksum
  · rw [if_pos hd, hd, h, if_pos rfl]
    rfl
  · rw [if_neg hd, if_neg fun heq => hd heq.symm, Option.or_none]

theorem insertWasm_new (h : s.plugins.find c = none) (hrow : x.row = s.nextRow) :
    ∃ t, s.insertWasm c x kind wasm = .ok (t, ⟨x.row, c, kind, wasm.length, x.storedAt⟩) ∧
      t.plugins.find c = some ⟨x.row, c, kind, wasm, x.storedAt⟩ ∧
      Refiled s t c s.nextRow.get (some (kind, wasm.length, x.storedAt)) := by
  obtain ⟨plugins, hadd, hfind⟩ := @exists_add s ⟨x.row, c, kind, wasm, x.storedAt⟩ h hrow
  have hok : ∃ t, s.insertWasm c x kind wasm = .ok (t, ⟨x.row, c, kind, wasm.length, x.storedAt⟩) ∧
      t.plugins = plugins ∧ t.tenants = s.tenants ∧ t.users = s.users ∧ t.owners = s.owners ∧
        t.rules = s.rules := by
    unfold Store.insertWasm
    rw [h]
    dsimp only
    split
    · rename_i hnone
      rw [hadd] at hnone
      cases hnone
    · rename_i plugins' hadd'
      rw [hadd] at hadd'
      cases hadd'
      exact ⟨_, rfl, rfl, rfl, rfl, rfl, rfl⟩
  obtain ⟨t, hok, rfl, htenants, husers, howners, hrules⟩ := hok
  refine ⟨t, hok, (hfind c).trans (if_pos rfl), htenants, husers, howners, hrules, ?_, ?_, ?_⟩
  · intro d
    rw [Store.rowOf, hfind]
    split
    · exact congrArg RowId.get hrow
    · rfl
  · intro d
    rw [Store.entry, hfind]
    split <;> rfl
  · intro id hid
    have hrefers : s.plugins.HasRow id := by
      rcases hid with ⟨o, ho, rfl⟩ | ⟨r, hr, rfl⟩
      · exact (s.ownersRefer o ho).1
      · exact (s.rulesRefer r hr).1
    obtain ⟨q, hq, rfl⟩ := hrefers
    refine ⟨Nat.ne_of_lt (Store.lt_nextRow hq), ?_⟩
    rw [Store.rowOf_of_none h]
    exact Nat.ne_of_gt q.rowId.assigned

theorem ownerRowId_congr {t : Store} (h : t.tenants = s.tenants) (owner : PluginOwner) :
    t.ownerRowId owner = s.ownerRowId owner := by
  cases owner with
  | global => rfl
  | tenant id => rw [Store.ownerRowId, Store.ownerRowId, Store.tenantRowId, Store.tenantRowId, h]

theorem hasRow_of_ownerRowId (h : s.ownerRowId owner = .ok chain) :
    ∀ tenant ∈ chain, s.tenants.HasRow tenant := by
  cases owner with
  | global =>
    cases h
    intro tenant htenant
    cases htenant
  | tenant id =>
    obtain ⟨row, hrow, rfl⟩ := ok_of_map h
    unfold Store.tenantRowId at hrow
    split at hrow
    · rename_i found hfound
      cases hrow
      intro tenant htenant
      cases htenant
      exact ⟨found, (Table.find_eq_some.mp hfound).1, rfl⟩
    · cases hrow

theorem insertOwner_held (howner : s.ownerRowId owner = .ok chain) (h : s.plugins.find c = some p)
    {since : Timestamp} (hheld : s.Held chain c since) :
    s.insertOwner x p.record owner = .ok (s, since) := by
  obtain ⟨o, ho, hchain, hrow, rfl⟩ := hheld
  have hkey : s.owners.find (chain, p.record.rowId) = some o := by
    refine Table.find_eq_some.mpr ⟨ho, Prod.ext hchain (RowId.ext ?_)⟩
    show o.plugin.get = p.rowId.get
    rw [← Store.rowOf_of_find h]
    exact hrow
  unfold Store.insertOwner
  rw [howner]
  dsimp only
  rw [hkey]

theorem insertOwner_new (howner : s.ownerRowId owner = .ok chain) (h : s.plugins.find c = some p)
    (hnot : ∀ since, ¬ s.Held chain c since) :
    ∃ t, s.insertOwner x p.record owner = .ok (t, x.ownedAt) ∧
      t.tenants = s.tenants ∧ t.users = s.users ∧ t.plugins = s.plugins ∧ t.rules = s.rules ∧
      t.owners.rows = s.owners.rows ++ [⟨p.rowId, chain, x.ownedAt⟩] := by
  have hfresh : ¬ s.owners.Has (chain, p.rowId) := by
    intro howns
    obtain ⟨since, hheld⟩ := (Store.owns_iff h).mp howns
    exact hnot since hheld
  have hrefer : s.plugins.HasRow p.record.rowId ∧ ∀ tenant ∈ chain, s.tenants.HasRow tenant :=
    ⟨⟨p, (Table.find_eq_some.mp h).1, rfl⟩, hasRow_of_ownerRowId howner⟩
  have hnone : s.owners.find (chain, p.record.rowId) = none := Table.find_eq_none.mpr hfresh
  unfold Store.insertOwner
  rw [howner]
  dsimp only
  rw [hnone]
  dsimp only
  split
  · rename_i hrefused
    exact absurd (Table.insert_eq_none.mp hrefused) hfresh
  · rename_i owners hinsert
    rw [dif_pos hrefer]
    exact ⟨_, rfl, rfl, rfl, rfl, rfl, (Table.insert_eq_some hinsert).2⟩

theorem deleteOwner_missing (hs : RulesOwned s) (howner : s.ownerRowId owner = .ok chain)
    (hnot : ∀ since, ¬ s.Held chain c since) :
    s.deleteOwner c owner = .error (.notFound .plugin (shown c)) := by
  unfold Store.deleteOwner
  rw [howner]
  dsimp only
  cases h : s.plugins.find c with
  | none => rfl
  | some p =>
    dsimp only
    have hnotOwned : ¬ s.Owns chain p.rowId := by
      intro howns
      obtain ⟨since, hheld⟩ := (Store.owns_iff h).mp howns
      exact hnot since hheld
    rw [if_neg, if_neg hnotOwned]
    intro hrun
    obtain ⟨r, hr, htest⟩ := List.any_eq_true.mp hrun
    rw [Bool.and_eq_true, beq_iff_eq, beq_iff_eq] at htest
    obtain ⟨hrow, hchain⟩ := htest
    have howns := (hs r hr).1
    rw [hrow, hchain] at howns
    exact hnotOwned howns

/-- Whether some rule of a chain runs a plugin, as the statement asks it. -/
theorem any_runs_iff (h : s.plugins.find c = some p) :
    (s.rules.rows.any fun r => r.plugin == p.rowId && r.chain == chain) = true ↔
      ∃ kind order, s.Runs chain c kind order := by
  constructor
  · intro hrun
    obtain ⟨r, hr, htest⟩ := List.any_eq_true.mp hrun
    rw [Bool.and_eq_true, beq_iff_eq, beq_iff_eq] at htest
    refine ⟨r.kind, r.order, r, hr, by rw [RuleRow.key, htest.2], ?_⟩
    rw [Store.rowOf_of_find h, htest.1]
  · rintro ⟨kind, order, r, hr, hkey, hrow⟩
    refine List.any_eq_true.mpr ⟨r, hr, ?_⟩
    rw [Bool.and_eq_true, beq_iff_eq, beq_iff_eq]
    refine ⟨RowId.ext ?_, (Prod.mk.inj hkey).1⟩
    rw [← Store.rowOf_of_find h]
    exact hrow

theorem deleteOwner_inUse (howner : s.ownerRowId owner = .ok chain) (h : s.plugins.find c = some p)
    (hrun : ∃ kind order, s.Runs chain c kind order) :
    s.deleteOwner c owner = .error (.inUse .plugin (shown c)) := by
  unfold Store.deleteOwner
  rw [howner]
  dsimp only
  rw [h]
  exact if_pos ((any_runs_iff h).mpr hrun)

theorem deleteOwner_held (howner : s.ownerRowId owner = .ok chain) (h : s.plugins.find c = some p)
    (hheld : ∃ since, s.Held chain c since) (hrun : ¬ ∃ kind order, s.Runs chain c kind order) :
    s.deleteOwner c owner = .ok (s.keepOwners fun o => o.key != (chain, p.rowId), p.record) := by
  unfold Store.deleteOwner
  rw [howner]
  dsimp only
  rw [h]
  dsimp only
  rw [if_neg fun hany => hrun ((any_runs_iff h).mp hany), if_pos ((Store.owns_iff h).mpr hheld)]

theorem deleteUnowned_kept (h : s.plugins.find c = some p) (helse : s.HeldElsewhere chain c) :
    s.deleteUnowned p.record = .ok (s, false) := by
  obtain ⟨o, ho, -, hrow⟩ := helse
  unfold Store.deleteUnowned
  rw [dif_pos]
  refine ⟨o, ho, RowId.ext ?_⟩
  rw [hrow, Store.rowOf_of_find h]
  rfl

theorem deleteUnowned_swept (hs : RulesOwned s) (h : s.plugins.find c = some p)
    (hnot : ∀ since, ¬ s.Held chain c since) (helse : ¬ s.HeldElsewhere chain c) :
    ∃ t swept, s.deleteUnowned p.record = .ok (t, swept) ∧ Refiled s t c 0 none := by
  obtain ⟨hp, hkey⟩ := Table.find_eq_some.mp h
  have hheld : ¬ ∃ o ∈ s.owners.rows, o.plugin = p.rowId := by
    rintro ⟨o, ho, hrow⟩
    have hget : o.plugin.get = s.rowOf c := by rw [hrow, Store.rowOf_of_find h]
    by_cases hchain : o.chain = chain
    · exact hnot o.createdAt ⟨o, ho, hchain, hget, rfl⟩
    · exact helse ⟨o, ho, hchain, hget⟩
  have hrun : ¬ ∃ r ∈ s.rules.rows, r.plugin = p.rowId := by
    rintro ⟨r, hr, hrow⟩
    obtain ⟨o, ho, hkey'⟩ := (hs r hr).1
    exact hheld ⟨o, ho, (Prod.mk.inj hkey').2.trans hrow⟩
  have hfind : ∀ d, (s.plugins.without p.rowId).find d = if d = c then none else s.plugins.find d := by
    intro d
    rw [RowTable.find_without hp, hkey]
  refine ⟨_, _, (dif_neg hheld).trans (dif_neg hrun), rfl, rfl, rfl, rfl, ?_, ?_, ?_⟩
  · intro d
    show ((s.plugins.without p.rowId).find d).elim 0 _ = _
    rw [hfind]
    split <;> rfl
  · intro d
    show ((s.plugins.without p.rowId).find d).map _ = _
    rw [hfind]
    split <;> rfl
  · intro id hid
    refine ⟨Nat.ne_of_gt id.assigned, ?_⟩
    rw [Store.rowOf_of_find h]
    intro hget
    rcases hid with ⟨o, ho, rfl⟩ | ⟨r, hr, rfl⟩
    · exact hheld ⟨o, ho, RowId.ext hget⟩
    · exact hrun ⟨r, hr, RowId.ext hget⟩

theorem ownedPlugin_held (h : s.plugins.find c = some p) (hheld : ∃ since, s.Held chain c since) :
    s.ownedPlugin c chain = some (p.rowId, p.kind) := by
  unfold Store.ownedPlugin
  rw [h]
  exact if_pos ((Store.owns_iff h).mpr hheld)

theorem ownedPlugin_missing (hnot : ∀ since, ¬ s.Held chain c since) : s.ownedPlugin c chain = none := by
  unfold Store.ownedPlugin
  cases h : s.plugins.find c with
  | none => rfl
  | some p =>
    refine if_neg fun howns => ?_
    obtain ⟨since, hheld⟩ := (Store.owns_iff h).mp howns
    exact hnot since hheld

theorem rules_has_iff {order : PluginOrder} :
    s.rules.Has (chain, kind, order) ↔ ∃ c, s.Runs chain c kind order := by
  constructor
  · rintro ⟨r, hr, hkey⟩
    obtain ⟨c, hrow⟩ := Store.exists_rowOf (s.rulesRefer r hr).1
    exact ⟨c, r, hr, hkey, hrow⟩
  · rintro ⟨c, r, hr, hkey, -⟩
    exact ⟨r, hr, hkey⟩

/-- A rule whose row passes the checks of the table is refused for its place or is added. -/
theorem insertRule_checked {plugin : RowId} {user : Option RowId} {api : Option ApiId} {order : PluginOrder}
    {now : Timestamp} (hnarrowed : chain = none → user = none ∧ api = none)
    (hranged : chain.isNone = order.isPrimary) (hplugin : s.plugins.HasRow plugin)
    (htenant : ∀ tenant ∈ chain, s.tenants.HasRow tenant) (huser : ∀ account ∈ user, s.users.HasRow account) :
    (s.rules.Has (chain, kind, order) → s.insertRule plugin chain user api kind order now
        = .error (.conflict .pluginRule (ruleName kind order))) ∧
      (¬ s.rules.Has (chain, kind, order) → ∃ t r, s.insertRule plugin chain user api kind order now = .ok t ∧
        t.tenants = s.tenants ∧ t.users = s.users ∧ t.plugins = s.plugins ∧ t.owners = s.owners ∧
        t.rules.rows = s.rules.rows ++ [r] ∧ r.key = (chain, kind, order) ∧ r.plugin = plugin) := by
  unfold Store.insertRule
  rw [dif_pos hnarrowed, dif_pos hranged]
  constructor
  · intro hhas
    exact dif_pos hhas
  · intro hfresh
    refine ⟨_, _, (dif_neg hfresh).trans (dif_pos ⟨hplugin, htenant, huser⟩), rfl, rfl, rfl, rfl, rfl, rfl, rfl⟩

end Statements

/-! ### Holds and rules, by checksums -/

section Holds

variable {s t : Store} {c : Checksum} {p : PluginRow} {chain : Chain}

/-- A hold is added: the chain holds the plugin too, and no other does. -/
theorem held_of_added (ht : Kept s t) (hp : s.plugins.find c = some p) {now : Timestamp}
    (howners : t.owners.rows = s.owners.rows ++ [⟨p.rowId, chain, now⟩]) (d : Checksum) :
    (∀ since, t.Held chain d since ↔ s.Held chain d since ∨ d = c ∧ since = now) ∧
      (t.HeldElsewhere chain d ↔ s.HeldElsewhere chain d) := by
  have hrow : p.rowId.get = s.rowOf c := (Store.rowOf_of_find hp).symm
  unfold Store.Held Store.HeldElsewhere
  rw [howners, ht.rowOf]
  constructor
  · intro since
    constructor
    · rintro ⟨o, ho, hchain, hget, rfl⟩
      rcases List.mem_append.mp ho with ho | ho
      · exact .inl ⟨o, ho, hchain, hget, rfl⟩
      · obtain rfl := List.mem_singleton.mp ho
        exact .inr ⟨Store.eq_of_rowOf hget hrow, rfl⟩
    · rintro (⟨o, ho, hheld⟩ | ⟨rfl, rfl⟩)
      · exact ⟨o, List.mem_append_left _ ho, hheld⟩
      · exact ⟨_, List.mem_append_right _ (List.mem_singleton_self _), rfl, hrow, rfl⟩
  · constructor
    · rintro ⟨o, ho, hchain, hget⟩
      rcases List.mem_append.mp ho with ho | ho
      · exact ⟨o, ho, hchain, hget⟩
      · obtain rfl := List.mem_singleton.mp ho
        exact absurd rfl hchain
    · rintro ⟨o, ho, hother⟩
      exact ⟨o, List.mem_append_left _ ho, hother⟩

/-- A hold is let go: the chain holds the plugin no more, and whoever else does still does. -/
theorem held_of_released (hp : s.plugins.find c = some p) (d : Checksum) :
    (∀ since, (s.keepOwners fun o => o.key != (chain, p.rowId)).Held chain d since ↔
        s.Held chain d since ∧ d ≠ c) ∧
      ((s.keepOwners fun o => o.key != (chain, p.rowId)).HeldElsewhere chain d ↔
        s.HeldElsewhere chain d) := by
  have hrow : p.rowId.get = s.rowOf c := (Store.rowOf_of_find hp).symm
  constructor
  · intro since
    constructor
    · rintro ⟨o, ho, hchain, hget, rfl⟩
      obtain ⟨ho, hne⟩ := Table.mem_keep.mp ho
      refine ⟨⟨o, ho, hchain, hget, rfl⟩, ?_⟩
      rintro rfl
      exact bne_iff_ne.mp hne (Prod.ext hchain (RowId.ext (hget.trans hrow.symm)))
    · rintro ⟨⟨o, ho, hchain, hget, rfl⟩, hd⟩
      refine ⟨o, Table.mem_keep.mpr ⟨ho, bne_iff_ne.mpr fun heq => hd ?_⟩, hchain, hget, rfl⟩
      refine Store.eq_of_rowOf hget ?_
      rw [(Prod.mk.inj heq).2, hrow]
  · constructor
    · rintro ⟨o, ho, hchain, hget⟩
      exact ⟨o, (Table.mem_keep.mp ho).1, hchain, hget⟩
    · rintro ⟨o, ho, hchain, hget⟩
      refine ⟨o, Table.mem_keep.mpr ⟨ho, bne_iff_ne.mpr fun heq => hchain ?_⟩, hchain, hget⟩
      exact (Prod.mk.inj heq).1

theorem runs_of_added (ht : Kept s t) {r : RuleRow} (hrules : t.rules.rows = s.rules.rows ++ [r])
    (hr : r.plugin.get = s.rowOf c) {d : Checksum} {kind : PluginKind} {order : PluginOrder} :
    t.Runs chain d kind order ↔ s.Runs chain d kind order ∨ d = c ∧ r.key = (chain, kind, order) := by
  unfold Store.Runs
  rw [hrules, ht.rowOf]
  constructor
  · rintro ⟨q, hq, hkey, hget⟩
    rcases List.mem_append.mp hq with hq | hq
    · exact .inl ⟨q, hq, hkey, hget⟩
    · obtain rfl := List.mem_singleton.mp hq
      exact .inr ⟨Store.eq_of_rowOf hget hr, hkey⟩
  · rintro (⟨q, hq, hruns⟩ | ⟨rfl, hkey⟩)
    · exact ⟨q, List.mem_append_left _ hq, hruns⟩
    · exact ⟨r, List.mem_append_right _ (List.mem_singleton_self _), hkey, hr⟩

end Holds

/-! ### Placing a rule -/

section Placing

variable {checksumOf : List UInt8 → Checksum} {x : Supply} {s : Store} {rule : NewPluginRule} {chain : Chain}
  {user : Option RowId} {api : Option ApiId}

theorem handle_of_ok {op : Op} {t : Store} {value : op.Val} (h : outcome checksumOf x op s = .ok (t, value)) :
    handle checksumOf (some x) op s = (t, .ok value) := by
  simp only [handle, h]

theorem handle_of_error {op : Op} {error : StorageError} (h : outcome checksumOf x op s = .error error) :
    handle checksumOf (some x) op s = (s, .error error) := by
  simp only [handle, h]

theorem handle_of_map {op : Op} {read : Except StorageError op.Val}
    (h : outcome checksumOf x op s = read.map fun value => (s, value)) :
    handle checksumOf (some x) op s = (s, read) := by
  cases read with
  | error error => exact handle_of_error h
  | ok value => exact handle_of_ok h

theorem handle_tenantRowId (id : TenantId) :
    handle checksumOf (some x) (.tenantRowId id) s = (s, s.tenantRowId id) := handle_of_map rfl

theorem handle_userRowId (id : UserId) :
    handle checksumOf (some x) (.userRowId id) s = (s, s.userRowId id) := handle_of_map rfl

theorem exec_ask {α : Type} (op : Op) (next : op.Res → Action α) :
    Process.exec (handle checksumOf) (some x) (ask op >>= next) s
      = Process.exec (handle checksumOf) (some x) (next (handle checksumOf (some x) op s).2)
          (handle checksumOf (some x) op s).1 := rfl

theorem exec_place_missing (h : s.ownedPlugin rule.checksum chain = none) :
    Process.exec (handle checksumOf) (some x) (place rule chain user api) s
      = (s, .error (.notFound .plugin (shown rule.checksum))) := by
  have hread : handle checksumOf (some x) (.ownedPlugin rule.checksum chain) s = (s, .ok none) := by
    rw [← h]
    rfl
  rw [place, exec_ask, hread]
  rfl

/-- A plugin the chain holds is placed as its kind, or refused as the statement is. -/
theorem exec_place_owned {plugin : RowId} {kind : PluginKind}
    (h : s.ownedPlugin rule.checksum chain = some (plugin, kind))
    {t : Store} {written : Except StorageError Unit}
    (hwrite : handle checksumOf (some x) (.insertRule plugin chain user api kind rule.order) s = (t, written)) :
    Process.exec (handle checksumOf) (some x) (place rule chain user api) s
      = (t, written.map fun _ => rule.withKind kind) := by
  have hread : handle checksumOf (some x) (.ownedPlugin rule.checksum chain) s
      = (s, .ok (some (plugin, kind))) := by
    rw [← h]
    rfl
  rw [place, exec_ask, hread]
  show Process.exec _ _ (ask (.insertRule plugin chain user api kind rule.order) >>= _) s = _
  rw [exec_ask, hwrite]
  cases written <;> rfl

theorem exec_place_held {plugin : RowId} {kind : PluginKind}
    (h : s.ownedPlugin rule.checksum chain = some (plugin, kind)) :
    (∀ error, s.insertRule plugin chain user api kind rule.order x.storedAt = .error error →
      Process.exec (handle checksumOf) (some x) (place rule chain user api) s = (s, .error error)) ∧
    ∀ t, s.insertRule plugin chain user api kind rule.order x.storedAt = .ok t →
      Process.exec (handle checksumOf) (some x) (place rule chain user api) s
        = (t, .ok (rule.withKind kind)) := by
  constructor
  · intro error herror
    refine exec_place_owned h (handle_of_error ?_)
    rw [outcome, herror]
    rfl
  · intro t hok
    refine exec_place_owned h (@handle_of_ok checksumOf x s _ t () ?_)
    rw [outcome, hok]
    rfl

end Placing

/-! ### The list -/

/-- What a list tells of a plugin: its checksum, its kind, its size and since when it is held. -/
abbrev Told := Checksum × PluginKind × ℕ × Timestamp

def told (record : PluginRecord) : Told := (record.checksum, record.kind, record.size, record.createdAt)

def Told.view (t : Told) : PluginView := ⟨shown t.1, t.2.1.name, t.2.2.1, t.2.2.2⟩

/-- The order of a list, said of what it tells. -/
def ToldFirst (s : Store) (a b : Told) : Prop :=
  b.2.2.2.unixSeconds < a.2.2.2.unixSeconds ∨
    a.2.2.2.unixSeconds = b.2.2.2.unixSeconds ∧ s.rowOf b.1 ≤ s.rowOf a.1

instance (s : Store) : DecidableRel (ToldFirst s) := fun _ _ => inferInstanceAs (Decidable (_ ∨ _))

instance (s : Store) : Std.Total (ToldFirst s) := ⟨fun a b => by unfold ToldFirst; omega⟩

instance (s : Store) : IsTrans Told (ToldFirst s) := ⟨fun a b c => by unfold ToldFirst; omega⟩

section Lists

variable {s : Store} {chain : Chain}

theorem mem_holdings {record : PluginRecord} :
    record ∈ s.holdings chain ↔ ∃ o ∈ s.owners.rows, o.chain = chain ∧
      ∃ p ∈ s.plugins.rows, p.rowId = o.plugin ∧ { p.record with createdAt := o.createdAt } = record := by
  rw [Store.holdings, List.mem_filterMap]
  refine exists_congr fun o => and_congr_right fun _ => ?_
  by_cases hchain : o.chain = chain
  · rw [if_pos hchain, Option.map_eq_some_iff]
    constructor
    · rintro ⟨p, hp, hrecord⟩
      exact ⟨hchain, p, (Table.find_eq_some.mp hp).1, (Table.find_eq_some.mp hp).2, hrecord⟩
    · rintro ⟨-, p, hp, hrow, hrecord⟩
      exact ⟨p, Table.find_eq_some.mpr ⟨hp, hrow⟩, hrecord⟩
  · rw [if_neg hchain]
    exact ⟨fun h => (by cases h), fun h => absurd h.1 hchain⟩

theorem rowOf_of_mem_holdings {record : PluginRecord} (h : record ∈ s.holdings chain) :
    s.rowOf record.checksum = record.rowId.get := by
  obtain ⟨o, -, -, p, hp, -, rfl⟩ := mem_holdings.mp h
  exact Store.rowOf_of_find (Table.find_eq_some.mpr ⟨hp, rfl⟩)

/-- **A chain is told of what it holds**, since when, and of what is stored of it. -/
theorem mem_told {t : Told} : t ∈ (s.holdings chain).map told ↔
    s.Held chain t.1 t.2.2.2 ∧ ∃ stored, s.entry t.1 = some (t.2.1, t.2.2.1, stored) := by
  rw [List.mem_map]
  constructor
  · rintro ⟨record, hrecord, rfl⟩
    obtain ⟨o, ho, hchain, p, hp, hrow, rfl⟩ := mem_holdings.mp hrecord
    have hfind : s.plugins.find p.checksum = some p := Table.find_eq_some.mpr ⟨hp, rfl⟩
    refine ⟨⟨o, ho, hchain, ?_, rfl⟩, p.createdAt, Store.entry_of_find hfind⟩
    show o.plugin.get = s.rowOf p.checksum
    rw [Store.rowOf_of_find hfind, hrow]
  · obtain ⟨c, kind, size, since⟩ := t
    rintro ⟨⟨o, ho, hchain, hrow, rfl⟩, stored, hentry⟩
    obtain ⟨p, hp, hprow, rfl⟩ := Store.get_eq_rowOf_iff.mp hrow
    rw [Store.entry_of_find (Table.find_eq_some.mpr ⟨hp, rfl⟩)] at hentry
    simp only [Option.some.injEq, Prod.mk.injEq] at hentry
    refine ⟨{ p.record with createdAt := o.createdAt }, mem_holdings.mpr ⟨o, ho, hchain, p, hp, hprow, rfl⟩, ?_⟩
    rw [← hentry.1, ← hentry.2.1]
    rfl

theorem held_iff_told {c : Checksum} {since : Timestamp} :
    s.Held chain c since ↔ ∃ t ∈ (s.holdings chain).map told, t.1 = c ∧ t.2.2.2 = since := by
  constructor
  · intro hheld
    obtain ⟨p, hp⟩ := Store.find_of_held hheld
    exact ⟨(c, p.kind, p.wasm.length, since), mem_told.mpr ⟨hheld, _, Store.entry_of_find hp⟩, rfl, rfl⟩
  · rintro ⟨t, ht, rfl, rfl⟩
    exact (mem_told.mp ht).1

theorem nodup_told : ((s.holdings chain).map told).Nodup := by
  have howners : s.owners.rows.Nodup := List.Nodup.of_map _ s.owners.unique
  rw [Store.holdings, List.map_filterMap]
  refine List.Nodup.filterMap ?_ howners
  intro o o' t ht ht'
  have hrow : ∀ {o : OwnerRow}, t ∈ ((if o.chain = chain then
        (s.plugins.byRow.find o.plugin).map fun p => { p.record with createdAt := o.createdAt }
      else none).map told) → o.chain = chain ∧ o.plugin.get = s.rowOf t.1 ∧
        o.createdAt = t.2.2.2 := by
    intro o ht
    obtain ⟨record, hrecord, rfl⟩ := Option.map_eq_some_iff.mp ht
    by_cases hchain : o.chain = chain
    · rw [if_pos hchain] at hrecord
      obtain ⟨p, hp, rfl⟩ := Option.map_eq_some_iff.mp hrecord
      obtain ⟨hp, hkey⟩ := Table.find_eq_some.mp hp
      exact ⟨hchain, Store.get_eq_rowOf_iff.mpr ⟨p, hp, hkey, rfl⟩, rfl⟩
    · rw [if_neg hchain] at hrecord
      cases hrecord
  obtain ⟨hchain, hget, hsince⟩ := hrow ht
  obtain ⟨hchain', hget', hsince'⟩ := hrow ht'
  have hplugin : o.plugin = o'.plugin := RowId.ext (hget.trans hget'.symm)
  cases o
  cases o'
  simp_all

theorem told_eq_of_row {a b : Told} (ha : a ∈ (s.holdings chain).map told)
    (hb : b ∈ (s.holdings chain).map told) (hrow : s.rowOf a.1 = s.rowOf b.1) : a = b := by
  obtain ⟨hheld, stored, hentry⟩ := mem_told.mp ha
  obtain ⟨hheld', stored', hentry'⟩ := mem_told.mp hb
  have hchecksum : a.1 = b.1 := by
    obtain ⟨o, -, -, hget, -⟩ := hheld
    exact Store.eq_of_rowOf hget (hget.trans hrow)
  rw [← hchecksum] at hheld' hentry'
  have hsince := Store.held_unique hheld hheld'
  rw [hentry] at hentry'
  simp only [Option.some.injEq, Prod.mk.injEq] at hentry'
  exact Prod.ext hchecksum (Prod.ext hentry'.1 (Prod.ext hentry'.2.1 hsince))

/-- What is told of the holds after a page's moment. -/
def Store.toldAfter (s : Store) (chain : Chain) (page : Page) : List Told :=
  ((s.holdings chain).map told).filter fun t => page.afterSeconds < t.2.2.2.unixSeconds

/-- **A page is a slice of what is told**, in order. -/
theorem listPlugins_told {owner : PluginOwner} (howner : s.ownerRowId owner = .ok chain) (page : Page) :
    (s.listPlugins owner page).map (List.map PluginView.ofListed)
      = .ok (((((s.toldAfter chain page).insertionSort (ToldFirst s)).drop page.offset.toNat).take
          page.limit.toNat).map Told.view) := by
  have hsorted : (((s.holdings chain).filter fun record =>
        page.afterSeconds < record.createdAt.unixSeconds).insertionSort NewerFirst).map told
      = (s.toldAfter chain page).insertionSort (ToldFirst s) := by
    rw [Store.toldAfter, List.filter_map]
    refine List.map_insertionSort _ _ told _ fun a ha b hb => ?_
    have hrow := rowOf_of_mem_holdings (List.mem_filter.mp ha).1
    have hrow' := rowOf_of_mem_holdings (List.mem_filter.mp hb).1
    simp only [NewerFirst, ToldFirst, told, hrow, hrow']
  unfold Store.listPlugins
  rw [howner, ← hsorted, ← List.map_drop, ← List.map_take, List.map_map]
  show Except.ok _ = _
  rw [List.map_map]
  rfl

end Lists

end IntelliPrism.Plugins
