import IntelliPrism.Plugins.Shelf

/-!
# What a chain learns of the others

Wasm is stored once, however many chains hold it, so what one chain is told can depend on what the others
store.  Two stores are followed side by side that agree on all that one owner holds and runs.

* `SameOwner` — two stores agree on an owner's tenant, its holds with their dates, and its rules;
* `SameWasm` — they agree on the wasm some checksums name: what is stored of it, in which order, and whether
  another chain holds it;
* `Alike.upload`, `Alike.disown`, `Alike.place`, `Alike.list` — what each call makes of two such stores;
* `answers_tell_nothing` — **where they agree on the wasm the owner holds or uploads, it is told the same**;
* `answers_tell_of_others` — where they do not, it is told apart who stores what.
-/

namespace IntelliPrism.Plugins

open IntelliPrism.Core IntelliPrism.Lib
open IntelliPrism.Manage (StorageError storeRefusal)
open IntelliPrism.Gateway (acme)

/-! ### Two stores side by side -/

/-- A call uploads the wasm a checksum names. -/
def Call.Uploads (server : Server) (c : Checksum) : Call → Prop
  | .upload _ wasm => server.checksumOf wasm = c
  | _ => False

/-- Two stores agree on the tenants, and on what one owner holds, since when, and runs. -/
structure SameOwner (owner : PluginOwner) (chain : Chain) (s s' : Store) : Prop where
  tenants : s'.tenants = s.tenants
  users : s'.users = s.users
  there : s.ownerRowId owner = .ok chain
  held : ∀ c since, s.Held chain c since ↔ s'.Held chain c since
  runs : ∀ c kind order, s.Runs chain c kind order ↔ s'.Runs chain c kind order

/-- Two stores agree on the wasm that some checksums name: what is stored of it, in which order, and whether
a chain other than this one holds it. -/
structure SameWasm (chain : Chain) (named : Checksum → Prop) (s s' : Store) : Prop where
  entry : ∀ c, named c → s.entry c = s'.entry c
  order : ∀ c d, named c → named d → (s.rowOf c < s.rowOf d ↔ s'.rowOf c < s'.rowOf d)
  elsewhere : ∀ c, named c → (s.HeldElsewhere chain c ↔ s'.HeldElsewhere chain c)

/-- What two stores keep as the owner's calls are made on both: they agree on the owner and on the wasm it
names, of which what it holds is part, and every chain runs what it holds. -/
structure Alike (owner : PluginOwner) (chain : Chain) (named : Checksum → Prop) (s s' : Store) : Prop
    extends SameOwner owner chain s s', SameWasm chain named s s' where
  covers : ∀ c since, s.Held chain c since → named c
  owned : RulesOwned s
  owned' : RulesOwned s'

namespace Alike

variable {owner : PluginOwner} {chain : Chain} {named : Checksum → Prop} {s s' t t' : Store} {c : Checksum}

theorem there' (h : Alike owner chain named s s') : s'.ownerRowId owner = .ok chain := by
  rw [ownerRowId_congr h.tenants, h.there]

/-- Under a named checksum both stores have a row of one kind, size and date, or neither has one. -/
theorem find (h : Alike owner chain named s s') (hc : named c) {p : PluginRow}
    (hp : s.plugins.find c = some p) : ∃ p', s'.plugins.find c = some p' ∧
      p'.kind = p.kind ∧ p'.wasm.length = p.wasm.length ∧ p'.createdAt = p.createdAt := by
  have hentry := h.entry c hc
  rw [Store.entry_of_find hp] at hentry
  obtain ⟨p', hp', heq⟩ := Option.map_eq_some_iff.mp hentry.symm
  simp only [Prod.mk.injEq] at heq
  exact ⟨p', hp', heq⟩

theorem find_none (h : Alike owner chain named s s') (hc : named c) (hp : s.plugins.find c = none) :
    s'.plugins.find c = none := by
  have hentry := h.entry c hc
  rw [Store.entry, hp] at hentry
  exact Option.map_eq_none_iff.mp hentry.symm

theorem not_held (h : Alike owner chain named s s') (hnot : ∀ since, ¬ s.Held chain c since) :
    ∀ since, ¬ s'.Held chain c since :=
  fun since hsince => hnot since ((h.held c since).mpr hsince)

/-- A place in the owner's chain is taken in both stores, or free in both. -/
theorem rules_has (h : Alike owner chain named s s') (kind : PluginKind) (order : PluginOrder) :
    s.rules.Has (chain, kind, order) ↔ s'.rules.Has (chain, kind, order) := by
  rw [rules_has_iff, rules_has_iff]
  exact exists_congr fun c => h.runs c kind order

/-- **A row that comes or goes in both stores** leaves them alike. -/
theorem refiled {row row' : ℕ} {entry : Option (PluginKind × ℕ × Timestamp)}
    (h : Alike owner chain named s s') (ht : Refiled s t c row entry) (ht' : Refiled s' t' c row' entry)
    (horder : ∀ d, named d → (row < s.rowOf d ↔ row' < s'.rowOf d) ∧ (s.rowOf d < row ↔ s'.rowOf d < row'))
    (howned : RulesOwned t) (howned' : RulesOwned t') : Alike owner chain named t t' where
  tenants := by rw [ht.tenants, ht'.tenants, h.tenants]
  users := by rw [ht.users, ht'.users, h.users]
  there := by rw [ownerRowId_congr ht.tenants, h.there]
  held d since := by rw [ht.held_iff, ht'.held_iff, h.held]
  runs d kind order := by rw [ht.runs_iff, ht'.runs_iff, h.runs]
  entry d hd := by rw [ht.entry, ht'.entry, h.entry d hd]
  order d e hd he := by
    rw [ht.rowOf, ht'.rowOf, ht.rowOf, ht'.rowOf]
    by_cases hdc : d = c
    · by_cases hec : e = c
      · rw [if_pos hdc, if_pos hec, if_pos hdc, if_pos hec]
        exact iff_of_false (Nat.lt_irrefl _) (Nat.lt_irrefl _)
      · rw [if_pos hdc, if_neg hec, if_pos hdc, if_neg hec]
        exact (horder e he).1
    · by_cases hec : e = c
      · rw [if_neg hdc, if_pos hec, if_neg hdc, if_pos hec]
        exact (horder d hd).2
      · rw [if_neg hdc, if_neg hec, if_neg hdc, if_neg hec]
        exact h.order d e hd he
  elsewhere d hd := by rw [ht.heldElsewhere_iff, ht'.heldElsewhere_iff, h.elsewhere d hd]
  covers d since hheld := h.covers d since ((ht.held_iff d since).mp hheld)
  owned := howned
  owned' := howned'

/-- Holds and rules that change in both stores, over the plugins that are there, leave them alike where the
two still agree on them. -/
theorem of_kept (h : Alike owner chain named s s') (ht : Kept s t) (ht' : Kept s' t')
    (hheld : ∀ d since, t.Held chain d since ↔ t'.Held chain d since)
    (hruns : ∀ d kind order, t.Runs chain d kind order ↔ t'.Runs chain d kind order)
    (helse : ∀ d, named d → (t.HeldElsewhere chain d ↔ t'.HeldElsewhere chain d))
    (hcovers : ∀ d since, t.Held chain d since → named d) (howned : RulesOwned t) (howned' : RulesOwned t') :
    Alike owner chain named t t' where
  tenants := by rw [ht.tenants, ht'.tenants, h.tenants]
  users := by rw [ht.users, ht'.users, h.users]
  there := by rw [ownerRowId_congr ht.tenants, h.there]
  held := hheld
  runs := hruns
  entry d hd := by rw [ht.entry, ht'.entry, h.entry d hd]
  order d e hd he := by rw [ht.rowOf, ht'.rowOf, ht.rowOf, ht'.rowOf, h.order d e hd he]
  elsewhere := helse
  covers := hcovers
  owned := howned
  owned' := howned'

/-! ### Holding and letting go -/

theorem insertWasm (h : Alike owner chain named s s') (hc : named c) (now : Moment) (kind : PluginKind)
    (wasm : List UInt8) :
    Both (fun l l' => Alike owner chain named l.1 l'.1 ∧
        (∃ p, l.1.plugins.find c = some p ∧ l.2 = p.record) ∧
        (∃ p', l'.1.plugins.find c = some p' ∧ l'.2 = p'.record) ∧ PluginView.of l.2 = PluginView.of l'.2)
      (s.insertWasm c (s.supply now) kind wasm) (s'.insertWasm c (s'.supply now) kind wasm) := by
  cases hp : s.plugins.find c with
  | some p =>
    obtain ⟨p', hp', hkind, hsize, hdate⟩ := h.find hc hp
    by_cases hsame : p.kind = kind
    · rw [insertWasm_found hp hsame, insertWasm_found hp' (hkind.trans hsame)]
      refine .ok ⟨h, ⟨p, hp, rfl⟩, ⟨p', hp', rfl⟩, ?_⟩
      have hkey := (Table.find_eq_some.mp hp).2
      have hkey' := (Table.find_eq_some.mp hp').2
      simp only [PluginView.of, PluginRow.record, hkey, hkey', hkind, hsize, hdate]
    · rw [insertWasm_conflict hp hsame, insertWasm_conflict hp' (hkind ▸ hsame), hkind]
      exact .error _
  | none =>
    have hp' := h.find_none hc hp
    obtain ⟨t, hok, hfind, ht⟩ := @insertWasm_new s c (s.supply now) kind wasm hp rfl
    obtain ⟨t', hok', hfind', ht'⟩ := @insertWasm_new s' c (s'.supply now) kind wasm hp' rfl
    rw [hok, hok']
    refine .ok ⟨?_, ⟨_, hfind, rfl⟩, ⟨_, hfind', rfl⟩, rfl⟩
    refine h.refiled ht ht' (fun d hd => ?_) (h.owned.insertWasm hok) (h.owned'.insertWasm hok')
    -- the new row is above every row there is, in either store
    have hlt := @Store.rowOf_lt_nextRow s d
    have hlt' := @Store.rowOf_lt_nextRow s' d
    omega

theorem insertOwner (h : Alike owner chain named s s') (hc : named c) {x x' : Supply}
    (htime : x'.ownedAt = x.ownedAt) {p p' : PluginRow} (hp : s.plugins.find c = some p)
    (hp' : s'.plugins.find c = some p') :
    Both (fun l l' => Alike owner chain named l.1 l'.1) (s.insertOwner x p.record owner)
      (s'.insertOwner x' p'.record owner) := by
  by_cases hheld : ∃ since, s.Held chain c since
  · obtain ⟨since, hheld⟩ := hheld
    rw [insertOwner_held h.there hp hheld, insertOwner_held h.there' hp' ((h.held c since).mp hheld)]
    exact .ok h
  · have hnot := not_exists.mp hheld
    obtain ⟨t, hok, htenants, husers, hplugins, hrules, howners⟩ :=
      @insertOwner_new s c p x _ _ h.there hp hnot
    obtain ⟨t', hok', htenants', husers', hplugins', hrules', howners'⟩ :=
      @insertOwner_new s' c p' x' _ _ h.there' hp' (h.not_held hnot)
    have ht : Kept s t := ⟨htenants, husers, hplugins⟩
    have ht' : Kept s' t' := ⟨htenants', husers', hplugins'⟩
    rw [htime] at howners'
    rw [hok, hok']
    refine .ok (h.of_kept ht ht' ?_ ?_ ?_ ?_ (h.owned.insertOwner hok) (h.owned'.insertOwner hok'))
    · intro d since
      rw [(held_of_added ht hp howners d).1, (held_of_added ht' hp' howners' d).1, h.held]
    · intro d kind order
      rw [ht.runs_iff hrules, ht'.runs_iff hrules', h.runs]
    · intro d hd
      rw [(held_of_added ht hp howners d).2, (held_of_added ht' hp' howners' d).2, h.elsewhere d hd]
    · intro d since hsince
      rcases ((held_of_added ht hp howners d).1 since).mp hsince with hsince | ⟨rfl, -⟩
      · exact h.covers d since hsince
      · exact hc

/-- **An upload** of named wasm answers alike. -/
theorem putPlugin (h : Alike owner chain named s s') {checksumOf : List UInt8 → Checksum} (now : Moment)
    (kind : PluginKind) {wasm : List UInt8} (hc : named (checksumOf wasm)) :
    Both (fun l l' => Alike owner chain named l.1 l'.1 ∧ PluginView.of l.2 = PluginView.of l'.2)
      (s.putPlugin checksumOf (s.supply now) ⟨kind, wasm, owner⟩)
      (s'.putPlugin checksumOf (s'.supply now) ⟨kind, wasm, owner⟩) := by
  refine (h.insertWasm hc now kind wasm).bind ?_
  rintro ⟨t, record⟩ ⟨t', record'⟩ ⟨ht, ⟨p, hp, rfl⟩, ⟨p', hp', rfl⟩, hview⟩
  have hown : Both (fun l l' => Alike owner chain named l.1 l'.1)
      (t.insertOwner (s.supply now) p.record owner) (t'.insertOwner (s'.supply now) p'.record owner) :=
    ht.insertOwner hc rfl hp hp'
  refine hown.bind ?_
  intro l l' hl
  exact .ok ⟨hl, hview⟩

/-- Letting go of wasm the owner holds no more answers in both stores, and leaves them alike: it stays in
both where another chain holds it, and goes from both where none does. -/
theorem deleteUnowned (h : Alike owner chain named s s') (hc : named c) {p p' : PluginRow}
    (hp : s.plugins.find c = some p) (hp' : s'.plugins.find c = some p')
    (hnot : ∀ since, ¬ s.Held chain c since) :
    Both (fun l l' => Alike owner chain named l.1 l'.1) (s.deleteUnowned p.record)
      (s'.deleteUnowned p'.record) := by
  by_cases helse : s.HeldElsewhere chain c
  · rw [deleteUnowned_kept hp helse, deleteUnowned_kept hp' ((h.elsewhere c hc).mp helse)]
    exact .ok h
  · have helse' : ¬ s'.HeldElsewhere chain c := fun held => helse ((h.elsewhere c hc).mpr held)
    obtain ⟨t, swept, hok, ht⟩ := deleteUnowned_swept h.owned hp hnot helse
    obtain ⟨t', swept', hok', ht'⟩ := deleteUnowned_swept h.owned' hp' (h.not_held hnot) helse'
    rw [hok, hok']
    refine .ok (h.refiled ht ht' (fun d hd => ⟨?_, ?_⟩) (h.owned.deleteUnowned hok)
      (h.owned'.deleteUnowned hok'))
    · rw [Store.rowOf_pos_iff, Store.rowOf_pos_iff, h.entry d hd]
    · exact iff_of_false (Nat.not_lt_zero _) (Nat.not_lt_zero _)

/-- **A disown** answers alike. -/
theorem disownPlugin (h : Alike owner chain named s s') (c : Checksum) :
    Both (fun l l' => Alike owner chain named l.1 l'.1) (s.disownPlugin c owner)
      (s'.disownPlugin c owner) := by
  unfold Store.disownPlugin
  by_cases hheld : ∃ since, s.Held chain c since
  · have hheld' : ∃ since, s'.Held chain c since := hheld.imp fun since => (h.held c since).mp
    obtain ⟨since, hsince⟩ := hheld
    have hc := h.covers c since hsince
    obtain ⟨p, hp⟩ := Store.find_of_held hsince
    obtain ⟨p', hp', -⟩ := h.find hc hp
    by_cases hrun : ∃ kind order, s.Runs chain c kind order
    · have hrun' : ∃ kind order, s'.Runs chain c kind order :=
        hrun.imp fun kind => Exists.imp fun order => (h.runs c kind order).mp
      rw [deleteOwner_inUse h.there hp hrun, deleteOwner_inUse h.there' hp' hrun']
      exact .error _
    · have hrun' : ¬ ∃ kind order, s'.Runs chain c kind order := by
        rintro ⟨kind, order, hruns⟩
        exact hrun ⟨kind, order, (h.runs c kind order).mpr hruns⟩
      have hok := deleteOwner_held h.there hp ⟨since, hsince⟩ hrun
      have hok' := deleteOwner_held h.there' hp' hheld' hrun'
      have ht : Kept s (s.keepOwners fun o => o.key != (chain, p.rowId)) := ⟨rfl, rfl, rfl⟩
      have ht' : Kept s' (s'.keepOwners fun o => o.key != (chain, p'.rowId)) := ⟨rfl, rfl, rfl⟩
      have hreleased := @held_of_released s c p chain hp
      have hreleased' := @held_of_released s' c p' chain hp'
      have hleft : Alike owner chain named (s.keepOwners fun o => o.key != (chain, p.rowId))
          (s'.keepOwners fun o => o.key != (chain, p'.rowId)) := by
        refine h.of_kept ht ht' ?_ ?_ ?_ ?_ (h.owned.deleteOwner hok) (h.owned'.deleteOwner hok')
        · intro d since
          rw [(hreleased d).1, (hreleased' d).1, h.held]
        · exact h.runs
        · intro d hd
          rw [(hreleased d).2, (hreleased' d).2, h.elsewhere d hd]
        · intro d since hsince
          exact h.covers d since (((hreleased d).1 since).mp hsince).1
      rw [hok, hok']
      exact hleft.deleteUnowned hc hp hp' fun since hsince => (((hreleased c).1 since).mp hsince).2 rfl
  · have hnot := not_exists.mp hheld
    rw [deleteOwner_missing h.owned h.there hnot, deleteOwner_missing h.owned' h.there' (h.not_held hnot)]
    exact .error _

/-! ### Placing -/

variable {checksumOf : List UInt8 → Checksum} {x x' : Supply} {rule : NewPluginRule}

theorem ruled (h : Alike owner chain named s s') (ht : Kept s t) (ht' : Kept s' t')
    (howners : t.owners = s.owners) (howners' : t'.owners = s'.owners) {r r' : RuleRow}
    (hrules : t.rules.rows = s.rules.rows ++ [r]) (hrules' : t'.rules.rows = s'.rules.rows ++ [r'])
    (hkey : r'.key = r.key) {c : Checksum} (hr : r.plugin.get = s.rowOf c) (hr' : r'.plugin.get = s'.rowOf c)
    (howned : RulesOwned t) (howned' : RulesOwned t') : Alike owner chain named t t' := by
  have hheld : ∀ d since, t.Held chain d since ↔ s.Held chain d since := by
    intro d since
    rw [Store.Held, Store.Held, howners, ht.rowOf]
  refine h.of_kept ht ht' ?_ ?_ ?_ ?_ howned howned'
  · intro d since
    rw [hheld, h.held, Store.Held, Store.Held, howners', ht'.rowOf]
  · intro d kind order
    rw [runs_of_added ht hrules hr, runs_of_added ht' hrules' hr', h.runs, hkey]
  · intro d hd
    have helse := h.elsewhere d hd
    rw [Store.HeldElsewhere, Store.HeldElsewhere] at helse ⊢
    rw [howners, howners', ht.rowOf, ht'.rowOf, helse]
  · intro d since hsince
    exact h.covers d since ((hheld d since).mp hsince)

theorem exec_place (h : Alike owner chain named s s') {user : Option RowId} {api : Option ApiId}
    (hnarrowed : chain = none → user = none ∧ api = none)
    (hranged : chain.isNone = rule.order.isPrimary) (huser : ∀ account ∈ user, s.users.HasRow account) :
    (Process.exec (handle checksumOf) (some x) (place rule chain user api) s).2
        = (Process.exec (handle checksumOf) (some x') (place rule chain user api) s').2 ∧
      Alike owner chain named (Process.exec (handle checksumOf) (some x) (place rule chain user api) s).1
        (Process.exec (handle checksumOf) (some x') (place rule chain user api) s').1 := by
  by_cases hheld : ∃ since, s.Held chain rule.checksum since
  · obtain ⟨since, hsince⟩ := hheld
    have hc := h.covers _ since hsince
    obtain ⟨p, hp⟩ := Store.find_of_held hsince
    obtain ⟨p', hp', hkind, -, -⟩ := h.find hc hp
    have hfound := ownedPlugin_held hp ⟨since, hsince⟩
    have hfound' := ownedPlugin_held hp' ⟨since, (h.held _ since).mp hsince⟩
    rw [hkind] at hfound'
    have huser' : ∀ account ∈ user, s'.users.HasRow account := by
      rw [h.users]
      exact huser
    obtain ⟨htaken, hfresh⟩ := @insertRule_checked s p.kind chain p.rowId user api rule.order x.storedAt
      hnarrowed hranged ⟨p, (Table.find_eq_some.mp hp).1, rfl⟩ (hasRow_of_ownerRowId h.there) huser
    obtain ⟨htaken', hfresh'⟩ := @insertRule_checked s' p.kind chain p'.rowId user api rule.order x'.storedAt
      hnarrowed hranged ⟨p', (Table.find_eq_some.mp hp').1, rfl⟩ (hasRow_of_ownerRowId h.there') huser'
    have hplace := h.rules_has p.kind rule.order
    by_cases hhas : s.rules.Has (chain, p.kind, rule.order)
    · rw [(exec_place_held hfound).1 _ (htaken hhas),
        (exec_place_held hfound').1 _ (htaken' (hplace.mp hhas))]
      exact ⟨rfl, h⟩
    · obtain ⟨t, r, hok, htenants, husers, hplugins, howners, hrules, hkey, hrow⟩ := hfresh hhas
      obtain ⟨t', r', hok', htenants', husers', hplugins', howners', hrules', hkey', hrow'⟩ :=
        hfresh' fun hhas' => hhas (hplace.mpr hhas')
      rw [(exec_place_held hfound).2 t hok, (exec_place_held hfound').2 t' hok']
      obtain ⟨howns, hstored⟩ := Store.ownedPlugin_eq_some hfound
      obtain ⟨howns', hstored'⟩ := Store.ownedPlugin_eq_some hfound'
      have hget : r.plugin.get = s.rowOf rule.checksum := by rw [hrow, Store.rowOf_of_find hp]
      have hget' : r'.plugin.get = s'.rowOf rule.checksum := by rw [hrow', Store.rowOf_of_find hp']
      exact ⟨rfl, h.ruled ⟨htenants, husers, hplugins⟩ ⟨htenants', husers', hplugins'⟩ howners howners' hrules
        hrules' (hkey'.trans hkey.symm) hget hget' (h.owned.insertRule howns hstored hok)
        (h.owned'.insertRule howns' hstored' hok')⟩
  · have hnot := not_exists.mp hheld
    rw [exec_place_missing (ownedPlugin_missing hnot),
      exec_place_missing (ownedPlugin_missing (h.not_held hnot))]
    exact ⟨rfl, h⟩

theorem hasRow_of_userRowId {id : UserId} {account : RowId} (h : s.userRowId id = .ok account) :
    s.users.HasRow account := by
  unfold Store.userRowId at h
  split at h
  · rename_i found hfound
    cases h
    exact ⟨found, (Table.find_eq_some.mp hfound).1, rfl⟩
  · cases h

/-- **Placing one of the owner's plugins** answers alike. -/
theorem putRule (h : Alike owner chain named s s')
    (hscope : PluginOwner.ofScope rule.scope = owner) :
    (Process.exec (handle checksumOf) (some x) (putRule rule) s).2
        = (Process.exec (handle checksumOf) (some x') (putRule rule) s').2 ∧
      Alike owner chain named (Process.exec (handle checksumOf) (some x) (putRule rule) s).1
        (Process.exec (handle checksumOf) (some x') (putRule rule) s').1 := by
  have hchecked : rule.order.isPrimary = rule.scope.isGlobal := by
    have := rule.checked
    unfold checkOrder at this
    split at this
    · assumption
    · cases this
  have hthere := h.there
  rw [← hscope] at hthere
  unfold Plugins.putRule
  cases hrule : rule.scope with
  | global =>
    rw [hrule] at hthere hchecked
    cases hthere
    exact h.exec_place (fun _ => ⟨rfl, rfl⟩) hchecked.symm fun _ haccount => by cases haccount
  | tenant tenant user api =>
    rw [hrule] at hthere hchecked
    obtain ⟨row, hrow, rfl⟩ := ok_of_map hthere
    have hrow' : s'.tenantRowId tenant = .ok row := by
      rw [Store.tenantRowId, h.tenants]
      exact hrow
    have hnarrowed : ∀ {user : Option RowId} {api : Option ApiId},
        (some row : Chain) = none → user = none ∧ api = none := fun hnone => by cases hnone
    dsimp only
    rw [exec_ask, exec_ask, handle_tenantRowId, handle_tenantRowId, hrow, hrow']
    cases user with
    | none => exact h.exec_place hnarrowed hchecked.symm fun _ haccount => by cases haccount
    | some user =>
      have huser : s'.userRowId user = s.userRowId user := by
        rw [Store.userRowId, Store.userRowId, h.users]
      dsimp only
      rw [exec_ask, exec_ask, handle_userRowId, handle_userRowId, huser]
      cases haccount : s.userRowId user with
      | error error => exact ⟨rfl, h⟩
      | ok account =>
        refine h.exec_place hnarrowed hchecked.symm fun account' heq => ?_
        cases heq
        exact hasRow_of_userRowId haccount

/-! ### The list -/

theorem told_perm (h : Alike owner chain named s s') :
    ((s.holdings chain).map told).Perm ((s'.holdings chain).map told) := by
  refine (List.perm_ext_iff_of_nodup nodup_told nodup_told).mpr fun t => ?_
  rw [mem_told, mem_told, ← h.held]
  refine and_congr_right fun hheld => ?_
  rw [h.entry _ (h.covers _ _ hheld)]

/-- **The list** is told in one order. -/
theorem sorted_eq (h : Alike owner chain named s s') (page : Page) :
    (s.toldAfter chain page).insertionSort (ToldFirst s)
      = (s'.toldAfter chain page).insertionSort (ToldFirst s') := by
  have hperm : (s.toldAfter chain page).Perm (s'.toldAfter chain page) := h.told_perm.filter _
  have htold : ∀ t ∈ s'.toldAfter chain page, t ∈ (s.holdings chain).map told := by
    intro t ht
    exact (List.mem_filter.mp (hperm.mem_iff.mpr ht)).1
  have hnamed : ∀ t ∈ s'.toldAfter chain page, named t.1 := by
    intro t ht
    exact h.covers _ _ (mem_told.mp (htold t ht)).1
  -- on what is listed the order of the second store is that of the first
  have hsame := List.map_insertionSort (ToldFirst s) (ToldFirst s') id (s'.toldAfter chain page) <| by
    intro a ha b hb
    have horder := h.order a.1 b.1 (hnamed a ha) (hnamed b hb)
    simp only [ToldFirst, id]
    omega
  rw [List.map_id, List.map_id] at hsame
  rw [← hsame]
  refine List.Perm.eq_of_pairwise ?_ (List.pairwise_insertionSort _ _) (List.pairwise_insertionSort _ _)
    ((List.perm_insertionSort _ _).trans (hperm.trans (List.perm_insertionSort _ _).symm))
  intro a b ha hb hab hba
  have hrow : s.rowOf a.1 = s.rowOf b.1 := by
    unfold ToldFirst at hab hba
    omega
  have ha' := (List.mem_filter.mp ((List.perm_insertionSort _ _).mem_iff.mp ha)).1
  have hb' := htold b ((List.perm_insertionSort _ _).mem_iff.mp hb)
  exact told_eq_of_row ha' hb' hrow

/-- **A page of the list** is told alike. -/
theorem listPlugins (h : Alike owner chain named s s') (query : PageQuery) :
    listPlugins owner query s = listPlugins owner query s' := by
  unfold Plugins.listPlugins
  cases paged query with
  | error refusal => rfl
  | ok page =>
    have hpage := listPlugins_told h.there page
    have hpage' := listPlugins_told h.there' page
    rw [← h.sorted_eq page, ← hpage] at hpage'
    obtain ⟨listed, hlisted, hviews⟩ := ok_of_map hpage
    rw [hlisted] at hpage'
    obtain ⟨listed', hlisted', hviews'⟩ := ok_of_map hpage'
    dsimp only
    rw [hlisted, hlisted']
    exact congrArg Reply.listed hviews'.symm

/-! ### One call, and whole runs -/

theorem uploadReply_eq {stored stored' : Except StorageError PluginRecord}
    (h : Both (fun record record' => PluginView.of record = PluginView.of record') stored stored') :
    uploadReply stored = uploadReply stored' := by
  cases h with
  | error error => rfl
  | ok hview => exact congrArg Reply.created hview

theorem disownReply_eq {disowned disowned' : Except StorageError Bool}
    (h : Both (fun _ _ => True) disowned disowned') : disownReply disowned = disownReply disowned' := by
  cases h <;> rfl

theorem scope_of_new {c : Checksum} {order : PluginOrder} {scope : PluginScope} {rule : NewPluginRule}
    (h : NewPluginRule.new c order scope = .ok rule) : rule.scope = scope := by
  unfold NewPluginRule.new at h
  split at h
  · cases h
  · cases h
    rfl

theorem owner_of_placementScope {server : Server} {placement : Placement} {scope : PluginScope}
    (h : placementScope server owner placement = .ok scope) : PluginOwner.ofScope scope = owner := by
  unfold placementScope at h
  split at h
  · split at h <;> cases h
    rfl
  · split at h
    · cases h
      rfl
    · split at h <;> cases h
      rfl
    · cases h

/-- What a call answers with, and what it leaves, read off its outcome in both stores. -/
theorem handled (h : Alike owner chain named s s')
    (op : Op) (S : op.Val → op.Val → Prop)
    (hboth : Both (fun l l' => Alike owner chain named l.1 l'.1 ∧ S l.2 l'.2)
      (outcome checksumOf x op s) (outcome checksumOf x' op s')) :
    Both S (handle checksumOf (some x) op s).2 (handle checksumOf (some x') op s').2 ∧
      Alike owner chain named (handle checksumOf (some x) op s).1 (handle checksumOf (some x') op s').1 := by
  generalize hok : outcome checksumOf x op s = left at hboth
  generalize hok' : outcome checksumOf x' op s' = left' at hboth
  cases hboth with
  | error error =>
    rw [handle_of_error hok, handle_of_error hok']
    exact ⟨.error _, h⟩
  | ok hleft =>
    rw [handle_of_ok hok, handle_of_ok hok']
    exact ⟨.ok hleft.2, hleft.1⟩

variable {server : Server} {now : Moment}

theorem upload (h : Alike owner chain named s s') (kind : Option String) {wasm : List UInt8}
    (hc : named (server.checksumOf wasm)) :
    (upload server owner now kind wasm s).2 = (upload server owner now kind wasm s').2 ∧
      Alike owner chain named (upload server owner now kind wasm s).1
        (upload server owner now kind wasm s').1 := by
  unfold Plugins.upload
  cases kind.bind PluginKind.fromStr with
  | none => exact ⟨rfl, h⟩
  | some kind =>
    cases server.compileRefusal wasm with
    | some refusal => exact ⟨rfl, h⟩
    | none =>
      obtain ⟨hanswer, hleft⟩ := h.handled (.putPlugin ⟨kind, wasm, owner⟩)
        (fun record record' => PluginView.of record = PluginView.of record') (h.putPlugin now kind hc)
      exact ⟨uploadReply_eq hanswer, hleft⟩

theorem disown (h : Alike owner chain named s s') (checksum : String) :
    (disown server owner now checksum s).2 = (disown server owner now checksum s').2 ∧
      Alike owner chain named (disown server owner now checksum s).1
        (disown server owner now checksum s').1 := by
  unfold Plugins.disown
  cases Checksum.fromHex checksum with
  | none => exact ⟨rfl, h⟩
  | some c =>
    have hboth := (h.disownPlugin c).mono fun _ _ hl => And.intro hl trivial
    obtain ⟨hanswer, hleft⟩ := @handled owner chain named s s' server.checksumOf (s.supply now)
      (s'.supply now) h (.disownPlugin c owner) (fun _ _ => True) hboth
    exact ⟨disownReply_eq hanswer, hleft⟩

theorem placeRule (h : Alike owner chain named s s') (placement : Placement) :
    (placeRule server owner now placement s).2 = (placeRule server owner now placement s').2 ∧
      Alike owner chain named (placeRule server owner now placement s).1
        (placeRule server owner now placement s').1 := by
  unfold Plugins.placeRule
  cases hscope : placementScope server owner placement with
  | error refusal => exact ⟨rfl, h⟩
  | ok scope =>
    dsimp only
    cases Checksum.fromHex placement.checksum with
    | none => exact ⟨rfl, h⟩
    | some c =>
      dsimp only
      cases hrule : NewPluginRule.new c ⟨placement.order⟩ scope with
      | error error => exact ⟨rfl, h⟩
      | ok rule =>
        have howner : PluginOwner.ofScope rule.scope = owner := by
          rw [scope_of_new hrule, owner_of_placementScope hscope]
        obtain ⟨hanswer, hleft⟩ := @putRule owner chain named s s' server.checksumOf (s.supply now)
          (s'.supply now) rule h howner
        exact ⟨congrArg placeReply hanswer, hleft⟩

/-- **One call** answers alike, and leaves the stores alike, where it uploads nothing but named wasm. -/
theorem serveCall (h : Alike owner chain named s s') {timed : Moment × Call}
    (hnamed : ∀ c, timed.2.Uploads server c → named c) :
    (serveCall server owner timed s).2 = (serveCall server owner timed s').2 ∧
      Alike owner chain named (serveCall server owner timed s).1 (serveCall server owner timed s').1 := by
  obtain ⟨now, call⟩ := timed
  cases call with
  | upload kind wasm => exact h.upload kind (hnamed _ rfl)
  | list query => exact ⟨h.listPlugins query, h⟩
  | place placement => exact h.placeRule placement
  | disown checksum => exact h.disown checksum

end Alike

/-- **Where two stores agree on the wasm an owner holds or uploads, the owner is told the same.**  For two
stores that agree on the tenants and on what the owner holds, since when, and runs, whose rules run only what
their own chains hold, and that agree on all that is stored of the wasm the owner holds or uploads, the answers
to any calls of the owner made at the same moments are the same. -/
theorem answers_tell_nothing {server : Server} {owner : PluginOwner} {chain : Chain} {s s' : Store}
    {calls : List (Moment × Call)} (hsame : SameOwner owner chain s s') (howned : RulesOwned s)
    (howned' : RulesOwned s')
    (hwasm : SameWasm chain (fun c => (∃ since, s.Held chain c since) ∨
      ∃ timed ∈ calls, timed.2.Uploads server c) s s') :
    answers (serveCall server owner) calls s = answers (serveCall server owner) calls s' := by
  have halike : Alike owner chain (fun c => (∃ since, s.Held chain c since) ∨
      ∃ timed ∈ calls, timed.2.Uploads server c) s s' :=
    { toSameOwner := hsame, toSameWasm := hwasm, covers := fun c since hheld => .inl ⟨since, hheld⟩,
      owned := howned, owned' := howned' }
  refine answers_eq (fun timed htimed t t' h => ?_) halike
  exact h.serveCall fun c hc => .inr ⟨timed, htimed, hc⟩

/-! ### What is told of others -/

/-- The row of the tenant of the examples. -/
def acmeRow : RowId := ⟨1, Nat.one_pos⟩

/-- A store of one tenant, with these plugins and holds and no rule. -/
def acmeStore (plugins : List PluginRow) (owners : List OwnerRow)
    (hkeys : (plugins.map PluginRow.checksum).Nodup) (hrows : (plugins.map PluginRow.rowId).Nodup)
    (howners : (owners.map OwnerRow.key).Nodup)
    (hrefer : ∀ o ∈ owners, (∃ p ∈ plugins, p.rowId = o.plugin) ∧ (o.chain = none ∨ o.chain = some acmeRow)) :
    Store where
  tenants := ⟨⟨[⟨acmeRow, acme⟩], List.nodup_singleton _⟩, List.nodup_singleton _⟩
  users := .empty
  plugins := ⟨⟨plugins, hkeys⟩, hrows⟩
  owners := ⟨owners, howners⟩
  rules := .empty
  ownersRefer := by
    intro o ho
    refine ⟨(hrefer o ho).1, fun tenant htenant => ?_⟩
    rcases (hrefer o ho).2 with hnone | hacme
    · rw [hnone] at htenant
      cases htenant
    · rw [hacme] at htenant
      cases htenant
      exact ⟨_, List.mem_singleton_self _, rfl⟩
  rulesRefer := by
    intro r hr
    cases hr

/-- A server on which all wasm loads. -/
def plainServer : Server where
  checksumOf := plainChecksum
  compileRefusal := fun _ => none
  membership := fun _ _ => .ok true

/-- A plugin of one byte, in a row, since the epoch. -/
def oneByte (row : ℕ) (byte : UInt8) : PluginRow :=
  ⟨⟨row + 1, Nat.succ_pos row⟩, plainChecksum [byte], .reqBody, [byte], .epoch⟩

/-- A hold on the plugin of a row, since the epoch. -/
def hold (row : ℕ) (chain : Chain) : OwnerRow := ⟨⟨row + 1, Nat.succ_pos row⟩, chain, .epoch⟩

def bareStore : Store := acmeStore [] [] (by decide) (by decide) (by decide) (by decide)

def globalStore : Store :=
  acmeStore [oneByte 0 7] [hold 0 none] (by decide) (by decide) (by decide) (by decide)

def twoStore : Store :=
  acmeStore [oneByte 0 7, oneByte 1 8] [hold 0 (some acmeRow), hold 1 (some acmeRow)] (by decide) (by decide)
    (by decide) (by decide)

/-- The tenant holds two plugins, of which the global chain stored the second first. -/
def sharedStore : Store :=
  acmeStore [oneByte 0 8, oneByte 1 7] [hold 0 none, hold 1 (some acmeRow), hold 0 (some acmeRow)] (by decide)
    (by decide) (by decide) (by decide)

def later : Moment := ⟨⟨60, by decide, by decide⟩, ⟨60, by decide, by decide⟩⟩

theorem ownerRowId_acmeStore {plugins : List PluginRow} {owners : List OwnerRow}
    {hkeys hrows howners hrefer} :
    (acmeStore plugins owners hkeys hrows howners hrefer).ownerRowId (.tenant acme) = .ok (some acmeRow) := by
  have hfind : (acmeStore plugins owners hkeys hrows howners hrefer).tenants.find acme
      = some ⟨acmeRow, acme⟩ :=
    Table.find_eq_some.mpr ⟨List.mem_singleton_self _, rfl⟩
  rw [Store.ownerRowId, Store.tenantRowId, hfind]
  rfl

theorem sameOwner_acmeStore {plugins plugins' : List PluginRow} {owners owners' : List OwnerRow}
    {hkeys hrows howners hrefer hkeys' hrows' howners' hrefer'}
    (h : ((acmeStore plugins owners hkeys hrows howners hrefer).holdings (some acmeRow)).map told
      = ((acmeStore plugins' owners' hkeys' hrows' howners' hrefer').holdings (some acmeRow)).map told) :
    SameOwner (.tenant acme) (some acmeRow) (acmeStore plugins owners hkeys hrows howners hrefer)
      (acmeStore plugins' owners' hkeys' hrows' howners' hrefer') where
  tenants := rfl
  users := rfl
  there := ownerRowId_acmeStore
  held c since := by rw [held_iff_told, held_iff_told, h]
  runs c kind order := by
    constructor
    · rintro ⟨r, hr, -⟩
      cases hr
    · rintro ⟨r, hr, -⟩
      cases hr

theorem rulesOwned_acmeStore {plugins : List PluginRow} {owners : List OwnerRow}
    {hkeys hrows howners hrefer} :
    RulesOwned (acmeStore plugins owners hkeys hrows howners hrefer) := by
  intro r hr
  cases hr

/-- A plugin of one byte as its owner sees it. -/
def oneByteView (byte : UInt8) (kind : String) (createdAt : Timestamp) : PluginView :=
  ⟨shown (plainChecksum [byte]), kind, 1, createdAt⟩

/-- **An owner is told of what others store.**  Of two stores that agree on all a tenant holds and runs, an
upload of wasm another chain stored as another kind is refused in one, and says as which; an upload as the same
kind answers with the date the other chain stored it; and a list of two plugins of one second is in the order
another chain stored them in. -/
theorem answers_tell_of_others :
    (SameOwner (.tenant acme) (some acmeRow) bareStore globalStore ∧
      RulesOwned bareStore ∧ RulesOwned globalStore ∧
      answers (serveCall plainServer (.tenant acme)) [(later, .upload (some "req_header") [7])] bareStore
        = [.created (oneByteView 7 "req_header" later.storedAt)] ∧
      answers (serveCall plainServer (.tenant acme)) [(later, .upload (some "req_header") [7])] globalStore
        = [.plain (.text .conflict
          ("plugin already exists: " ++ shown (plainChecksum [7]) ++ " as a req_body plugin"))] ∧
      answers (serveCall plainServer (.tenant acme)) [(later, .upload (some "req_body") [7])] bareStore
        = [.created (oneByteView 7 "req_body" later.storedAt)] ∧
      answers (serveCall plainServer (.tenant acme)) [(later, .upload (some "req_body") [7])] globalStore
        = [.created (oneByteView 7 "req_body" .epoch)]) ∧
    SameOwner (.tenant acme) (some acmeRow) twoStore sharedStore ∧
      RulesOwned twoStore ∧ RulesOwned sharedStore ∧
      answers (serveCall plainServer (.tenant acme)) [(later, .list ⟨none, none, none⟩)] twoStore
        = [.listed [oneByteView 8 "req_body" .epoch, oneByteView 7 "req_body" .epoch]] ∧
      answers (serveCall plainServer (.tenant acme)) [(later, .list ⟨none, none, none⟩)] sharedStore
        = [.listed [oneByteView 7 "req_body" .epoch, oneByteView 8 "req_body" .epoch]] := by
  refine ⟨⟨sameOwner_acmeStore ?_, rulesOwned_acmeStore, rulesOwned_acmeStore, ?_, ?_, ?_, ?_⟩,
    sameOwner_acmeStore ?_, rulesOwned_acmeStore, rulesOwned_acmeStore, ?_, ?_⟩
  all_goals decide +kernel

/-- What the global chain holds is not told to a tenant that uploads and lists other wasm. -/
theorem answers_tell_nothing_of_other_wasm :
    ∃ calls : List (Moment × Call), calls.length = 2 ∧
      SameOwner (.tenant acme) (some acmeRow) bareStore globalStore ∧
      answers (serveCall plainServer (.tenant acme)) calls bareStore
        = answers (serveCall plainServer (.tenant acme)) calls globalStore := by
  have hsame : SameOwner (.tenant acme) (some acmeRow) bareStore globalStore :=
    sameOwner_acmeStore (by decide +kernel)
  have hentry : bareStore.entry (plainChecksum [8]) = none ∧ globalStore.entry (plainChecksum [8]) = none := by
    decide +kernel
  have hrow : bareStore.rowOf (plainChecksum [8]) = 0 ∧ globalStore.rowOf (plainChecksum [8]) = 0 := by
    decide +kernel
  refine ⟨[(later, .upload (some "req_body") [8]), (later, .list ⟨none, none, none⟩)], rfl, hsame, ?_⟩
  refine answers_tell_nothing hsame rulesOwned_acmeStore rulesOwned_acmeStore ?_
  have hnamed : ∀ c, ((∃ since, bareStore.Held (some acmeRow) c since) ∨
      ∃ timed ∈ [(later, Call.upload (some "req_body") [8]), (later, .list ⟨none, none, none⟩)],
        timed.2.Uploads plainServer c) → c = plainChecksum [8] := by
    rintro c (⟨since, o, ho, -⟩ | ⟨timed, htimed, huploads⟩)
    · cases ho
    · simp only [List.mem_cons, List.not_mem_nil, or_false] at htimed
      rcases htimed with rfl | rfl
      · exact huploads.symm
      · exact huploads.elim
  refine ⟨?_, ?_, ?_⟩
  · intro c hc
    rw [hnamed c hc, hentry.1, hentry.2]
  · intro c d hc hd
    rw [hnamed c hc, hnamed d hd, hrow.1, hrow.2]
  · intro c hc
    rw [hnamed c hc]
    constructor
    · rintro ⟨o, ho, -⟩
      cases ho
    · rintro ⟨o, ho, -, hget⟩
      rw [hrow.2] at hget
      exact absurd o.plugin.assigned (by omega)

end IntelliPrism.Plugins
