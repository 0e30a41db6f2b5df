import IntelliPrism.Core.Plugin
import IntelliPrism.Gateway.Flow
import IntelliPrism.Gateway.Limit
import IntelliPrism.Lib.Ranking
import IntelliPrism.Manage.Store
import Mathlib.Data.List.Pairwise

/-!
# The chains a request runs

The rules in force are grouped by plugin, each plugin is loaded once, and its rules are filed under the
chain they belong to: every flow's, or one tenant's.  A request runs those of the global rules and of its
tenant's that apply to it, each in the slot of its kind, highest order first.

* `PluginChains.fromRules` — filing the rules, plugin by plugin;
* `PluginChains.chainsFor` — picking those of one request, each sorted in as it is added;
* `filed_fromRules` — **what is filed is what loads**, each rule once, under its own tenant;
* `slot_chainsFor` — a slot is the rules of its kind that apply, sorted;
* `chains_exact` — **a request runs exactly its own plugins, in order**, whatever order the rules were read in.
-/

namespace IntelliPrism.Plugins

open IntelliPrism.Core IntelliPrism.Lib IntelliPrism.Manage
open IntelliPrism.Gateway (acme alice bob)

/-! ### Rules with their processors -/

/-- A loaded plugin that serves in a chain, under its checksum and at its order. -/
structure Processor where
  checksum : Checksum
  order : PluginOrder
  deriving DecidableEq

def Processor.new (rule : PluginRule) : Processor := ⟨rule.checksum, rule.order⟩

/-- A loaded plugin, wrapped for the one chain its rule places it in. -/
inductive Slot where
  | requestHeader (processor : Processor)
  | requestBody (processor : Processor)
  | responseHeader (processor : Processor)
  | responseBody (processor : Processor)
  | responseChunk (processor : Processor)
  deriving DecidableEq

def Slot.new (rule : PluginRule) : Slot :=
  match rule.kind with
  | .reqHeader => .requestHeader (.new rule)
  | .reqBody => .requestBody (.new rule)
  | .respHeader => .responseHeader (.new rule)
  | .respBody => .responseBody (.new rule)
  | .respChunk => .responseChunk (.new rule)

/-- One rule in force, with the processor that carries it out. -/
@[ext] structure Placed where
  rule : PluginRule
  slot : Slot
  made : slot = Slot.new rule

def Placed.new (rule : PluginRule) : Placed := ⟨rule, .new rule, rfl⟩

/-! ### The chains of one flow -/

/-- The plugin chains of one flow, one per point the dataflow can act at. -/
@[ext] structure ProcessorChain where
  requestHeaders : List Processor
  requestBody : List Processor
  responseHeaders : List Processor
  responseBody : List Processor
  responseChunk : List Processor
  deriving DecidableEq

def Processor.rank (processor : Processor) : ℕ := processor.order.get.toNat

/-- Adds a plugin at the end and sorts, highest order first, those of one order as they came. -/
def insertSorted (chain : List Processor) (processor : Processor) : List Processor :=
  heaviestFirst Processor.rank (chain ++ [processor])

def insertHeader (chain : List Processor) (processor : Processor) : List Processor :=
  insertSorted chain processor

def insertBody (chain : List Processor) (processor : Processor) : List Processor :=
  insertSorted chain processor

namespace ProcessorChain

def new : ProcessorChain := ⟨[], [], [], [], []⟩

def withRequestHeader (chain : ProcessorChain) (processor : Processor) : ProcessorChain :=
  { chain with requestHeaders := insertHeader chain.requestHeaders processor }

def withRequestBody (chain : ProcessorChain) (processor : Processor) : ProcessorChain :=
  { chain with requestBody := insertBody chain.requestBody processor }

def withResponseHeader (chain : ProcessorChain) (processor : Processor) : ProcessorChain :=
  { chain with responseHeaders := insertHeader chain.responseHeaders processor }

def withResponseBody (chain : ProcessorChain) (processor : Processor) : ProcessorChain :=
  { chain with responseBody := insertBody chain.responseBody processor }

def withResponseChunk (chain : ProcessorChain) (processor : Processor) : ProcessorChain :=
  { chain with responseChunk := insertBody chain.responseChunk processor }

/-- The chain the plugins of one kind are in. -/
def slot (chain : ProcessorChain) : PluginKind → List Processor
  | .reqHeader => chain.requestHeaders
  | .reqBody => chain.requestBody
  | .respHeader => chain.responseHeaders
  | .respBody => chain.responseBody
  | .respChunk => chain.responseChunk

theorem ext_slot {chain chain' : ProcessorChain} (h : ∀ kind, chain.slot kind = chain'.slot kind) :
    chain = chain' :=
  ProcessorChain.ext (h .reqHeader) (h .reqBody) (h .respHeader) (h .respBody) (h .respChunk)

/-- The chains as the dataflow runs them, given what the loaded plugins do. -/
def running (chain : ProcessorChain) (header : Checksum → Gateway.HeaderProcessor)
    (body : Checksum → Gateway.BodyProcessor) : Gateway.ProcessorChain where
  requestHeaders := chain.requestHeaders.map fun processor => header processor.checksum
  requestBody := chain.requestBody.map fun processor => body processor.checksum
  responseHeaders := chain.responseHeaders.map fun processor => header processor.checksum
  responseBody := chain.responseBody.map fun processor => body processor.checksum
  responseChunk := chain.responseChunk.map fun processor => body processor.checksum

end ProcessorChain

def Placed.join (placed : Placed) (chain : ProcessorChain) : ProcessorChain :=
  match placed.slot with
  | .requestHeader processor => chain.withRequestHeader processor
  | .requestBody processor => chain.withRequestBody processor
  | .responseHeader processor => chain.withResponseHeader processor
  | .responseBody processor => chain.withResponseBody processor
  | .responseChunk processor => chain.withResponseChunk processor

theorem slot_join (placed : Placed) (chain : ProcessorChain) (kind : PluginKind) :
    (placed.join chain).slot kind =
      if placed.rule.kind = kind then insertSorted (chain.slot kind) (.new placed.rule) else chain.slot kind := by
  rw [Placed.join, placed.made]
  unfold Slot.new
  cases placed.rule.kind <;> cases kind <;> rfl

/-! ### Filing the rules -/

/-- Every way building the plugin chains can fail. -/
inductive ChainError where
  | storage (error : StorageError)
  | globalPlugin (checksum : Checksum) (detail : String)
  deriving DecidableEq

/-- Every plugin rule in force, by the tenant it belongs to. -/
structure PluginChains where
  global : List Placed
  tenants : TenantId → List Placed

/-- Where plugins are read from and what compiles them: the stored wasm under a checksum, and what is wrong
with it, if anything. -/
structure Loader where
  plugin : Checksum → Except StorageError (Option Bytes)
  load : Checksum → Bytes → Except String Unit

/-- Reads a plugin's wasm and compiles it, handing back why it will not load, if it will not. -/
def Loader.loadFailure (loader : Loader) (checksum : Checksum) : Except ChainError (Option String) :=
  match loader.plugin checksum with
  | .error error => .error (.storage error)
  | .ok none => .ok (some "it is not in the plugin store")
  | .ok (some wasm) =>
    match loader.load checksum wasm with
    | .error detail => .ok (some detail)
    | .ok () => .ok none

/-- Whether the plugin of a rule loads. -/
def Loader.loads (loader : Loader) (rule : PluginRule) : Bool :=
  decide (loader.loadFailure rule.checksum = .ok none)

/-- The rules by the plugin they name, the plugins in the order of their checksums. -/
abbrev ByPlugin := List (Checksum × List PluginRule)

/-- Adds a rule behind those of its plugin. -/
def ByPlugin.push (rule : PluginRule) : ByPlugin → ByPlugin
  | [] => [(rule.checksum, [rule])]
  | (checksum, placed) :: rest =>
    if rule.checksum = checksum then (checksum, placed ++ [rule]) :: rest
    else if rule.checksum.bytes < checksum.bytes then (rule.checksum, [rule]) :: (checksum, placed) :: rest
    else (checksum, placed) :: ByPlugin.push rule rest

namespace PluginChains

/-- Files a rule under its tenant, or with those of every flow. -/
def file (chains : PluginChains) (rule : PluginRule) : PluginChains :=
  match rule.scope.tenant? with
  | some tenant =>
    { chains with tenants := Function.update chains.tenants tenant (chains.tenants tenant ++ [.new rule]) }
  | none => { chains with global := chains.global ++ [.new rule] }

/-- Loads the plugins one after the other and files the rules of those that load.  A global plugin that
will not load ends it; a tenant's is left out, together with its rules. -/
def fileAll (loader : Loader) : ByPlugin → PluginChains → Except ChainError PluginChains
  | [], chains => .ok chains
  | (checksum, placed) :: rest, chains =>
    match loader.loadFailure checksum with
    | .error error => .error error
    | .ok (some detail) =>
      if placed.any fun rule => rule.scope == .global then .error (.globalPlugin checksum detail)
      else fileAll loader rest chains
    | .ok none => fileAll loader rest (placed.foldl file chains)

/-- Builds the chains from rules already in hand. -/
def fromRules (loader : Loader) (rules : List PluginRule) : Except ChainError PluginChains :=
  fileAll loader (rules.foldl (fun byPlugin rule => ByPlugin.push rule byPlugin) []) ⟨[], fun _ => []⟩

/-- The chains for a request by this identity, routed to this api. -/
def chainsFor (chains : PluginChains) (identity : Identity) (api : ApiId) : ProcessorChain :=
  ((chains.global ++ chains.tenants identity.tenant).filter fun placed =>
    placed.rule.appliesTo identity.tenant identity.user api).foldl
      (fun chain placed => placed.join chain) .new

/-! ### What is filed -/

/-- The rules filed under a tenant, or with those of every flow. -/
def filed (chains : PluginChains) : Option TenantId → List Placed
  | none => chains.global
  | some tenant => chains.tenants tenant

theorem filed_file (chains : PluginChains) (rule : PluginRule) (tenant : Option TenantId) :
    (chains.file rule).filed tenant =
      chains.filed tenant ++ if rule.scope.tenant? = tenant then [.new rule] else [] := by
  unfold file
  cases hscope : rule.scope.tenant? with
  | none =>
    cases tenant with
    | none => rfl
    | some tenant => exact (List.append_nil _).symm
  | some owner =>
    cases tenant with
    | none => exact (List.append_nil _).symm
    | some tenant =>
      by_cases heq : owner = tenant
      · subst heq
        rw [if_pos rfl]
        exact Function.update_self ..
      · rw [if_neg fun h => heq (Option.some.inj h), List.append_nil]
        exact Function.update_of_ne (fun h => heq h.symm) ..

theorem filed_foldl_file (placed : List PluginRule) (chains : PluginChains) (tenant : Option TenantId) :
    (placed.foldl file chains).filed tenant =
      chains.filed tenant ++ (placed.filter fun rule => rule.scope.tenant? = tenant).map Placed.new := by
  induction placed generalizing chains with
  | nil => exact (List.append_nil _).symm
  | cons rule placed ih =>
    rw [List.foldl_cons, ih, filed_file, List.append_assoc, List.filter_cons]
    by_cases heq : rule.scope.tenant? = tenant
    · simp [heq]
    · simp [heq]

end PluginChains

/-- Every rule is under its own plugin, and there is one under each. -/
def ByPlugin.Keyed (byPlugin : ByPlugin) : Prop :=
  ∀ group ∈ byPlugin, group.2 ≠ [] ∧ ∀ rule ∈ group.2, rule.checksum = group.1

def ByPlugin.rules (byPlugin : ByPlugin) : List PluginRule := byPlugin.flatMap Prod.snd

theorem ByPlugin.Keyed.push {byPlugin : ByPlugin} (h : byPlugin.Keyed) (rule : PluginRule) :
    (ByPlugin.push rule byPlugin).Keyed := by
  induction byPlugin with
  | nil => simp [ByPlugin.push, Keyed]
  | cons group rest ih =>
    obtain ⟨checksum, placed⟩ := group
    obtain ⟨hgroup, hrest⟩ := List.forall_mem_cons.mp h
    unfold ByPlugin.push
    split
    · rename_i heq
      refine List.forall_mem_cons.mpr ⟨⟨List.append_ne_nil_of_right_ne_nil _ (List.cons_ne_nil _ _),
        fun other hother => ?_⟩, hrest⟩
      rcases List.mem_append.mp hother with hother | hother
      · exact hgroup.2 other hother
      · rw [List.mem_singleton.mp hother]
        exact heq
    · split
      · refine List.forall_mem_cons.mpr ⟨⟨List.cons_ne_nil _ _, fun other hother => ?_⟩, h⟩
        rw [List.mem_singleton.mp hother]
      · exact List.forall_mem_cons.mpr ⟨hgroup, ih hrest⟩

theorem ByPlugin.rules_push (byPlugin : ByPlugin) (rule : PluginRule) :
    (ByPlugin.push rule byPlugin).rules.Perm (rule :: byPlugin.rules) := by
  induction byPlugin with
  | nil => exact .refl _
  | cons group rest ih =>
    obtain ⟨checksum, placed⟩ := group
    unfold ByPlugin.push
    split
    · show ((placed ++ [rule]) ++ rest.flatMap Prod.snd).Perm (rule :: (placed ++ rest.flatMap Prod.snd))
      rw [List.append_assoc]
      exact List.perm_middle
    · split
      · exact .refl _
      · show (placed ++ (ByPlugin.push rule rest).rules).Perm (rule :: (placed ++ ByPlugin.rules rest))
        exact (ih.append_left placed).trans List.perm_middle

/-- **Grouping loses no rule and adds none.** -/
theorem byPlugin_rules (rules : List PluginRule) :
    (rules.foldl (fun byPlugin rule => ByPlugin.push rule byPlugin) []).Keyed ∧
      (rules.foldl (fun byPlugin rule => ByPlugin.push rule byPlugin) []).rules.Perm rules := by
  suffices h : ∀ byPlugin : ByPlugin, byPlugin.Keyed →
      (rules.foldl (fun byPlugin rule => ByPlugin.push rule byPlugin) byPlugin).Keyed ∧
        (rules.foldl (fun byPlugin rule => ByPlugin.push rule byPlugin) byPlugin).rules.Perm
          (rules ++ byPlugin.rules) by
    have hnil := h [] (List.forall_mem_nil _)
    rwa [show ByPlugin.rules [] = [] from rfl, List.append_nil] at hnil
  induction rules with
  | nil => exact fun byPlugin hkeyed => ⟨hkeyed, .refl _⟩
  | cons rule rules ih =>
    intro byPlugin hkeyed
    obtain ⟨hkeyed', hperm⟩ := ih _ (hkeyed.push rule)
    exact ⟨hkeyed', hperm.trans (((ByPlugin.rules_push byPlugin rule).append_left rules).trans
      List.perm_middle)⟩

namespace PluginChains

variable {loader : Loader}

/-- The rules of the plugins that load are filed, in the order of the plugins. -/
theorem filed_fileAll {byPlugin : ByPlugin} (hkeyed : byPlugin.Keyed) {chains chains' : PluginChains}
    (h : fileAll loader byPlugin chains = .ok chains') (tenant : Option TenantId) :
    chains'.filed tenant = chains.filed tenant ++
      (byPlugin.rules.filter fun rule => loader.loads rule && decide (rule.scope.tenant? = tenant)).map
        Placed.new := by
  induction byPlugin generalizing chains with
  | nil =>
    cases h
    exact (List.append_nil _).symm
  | cons group rest ih =>
    obtain ⟨checksum, placed⟩ := group
    obtain ⟨⟨-, hgroup⟩, hrest⟩ := List.forall_mem_cons.mp hkeyed
    have hloads : ∀ rule ∈ placed, loader.loads rule = decide (loader.loadFailure checksum = .ok none) :=
      fun rule hrule => by rw [Loader.loads, hgroup rule hrule]
    rw [show ByPlugin.rules ((checksum, placed) :: rest) = placed ++ ByPlugin.rules rest from rfl,
      List.filter_append, List.map_append]
    unfold fileAll at h
    split at h
    · cases h
    · rename_i detail hfail
      split at h
      · cases h
      · have hnone : placed.filter (fun rule => loader.loads rule &&
            decide (rule.scope.tenant? = tenant)) = [] := by
          refine List.filter_eq_nil_iff.mpr fun rule hrule => ?_
          rw [hloads rule hrule, hfail]
          simp
        rw [hnone]
        exact ih hrest h
    · rename_i hload
      rw [ih hrest h, filed_foldl_file, List.append_assoc]
      congr 3
      refine List.filter_congr fun rule hrule => ?_
      rw [hloads rule hrule, hload]
      simp

/-- **What is filed is what loads**: each rule whose plugin loads, once, under its own tenant. -/
theorem filed_fromRules {rules : List PluginRule} {chains : PluginChains}
    (h : fromRules loader rules = .ok chains) (tenant : Option TenantId) :
    (chains.filed tenant).Perm ((rules.filter fun rule =>
      loader.loads rule && decide (rule.scope.tenant? = tenant)).map Placed.new) := by
  obtain ⟨hkeyed, hperm⟩ := byPlugin_rules rules
  have hfiled := filed_fileAll hkeyed h tenant
  rw [show filed ⟨[], fun _ => []⟩ tenant = [] by cases tenant <;> rfl, List.nil_append] at hfiled
  rw [hfiled]
  exact (hperm.filter _).map _

theorem exists_fileAll {byPlugin : ByPlugin}
    (hloads : ∀ group ∈ byPlugin, loader.loadFailure group.1 = .ok none) (chains : PluginChains) :
    ∃ chains', fileAll loader byPlugin chains = .ok chains' := by
  induction byPlugin generalizing chains with
  | nil => exact ⟨chains, rfl⟩
  | cons group rest ih =>
    obtain ⟨hthis, hrest⟩ := List.forall_mem_cons.mp hloads
    obtain ⟨chains', hchains'⟩ := ih hrest (group.2.foldl file chains)
    refine ⟨chains', ?_⟩
    rw [fileAll, hthis]
    exact hchains'

theorem exists_fromRules {rules : List PluginRule} (hloads : ∀ rule ∈ rules, loader.loads rule = true) :
    ∃ chains, fromRules loader rules = .ok chains := by
  obtain ⟨hkeyed, hperm⟩ := byPlugin_rules rules
  refine exists_fileAll (fun group hgroup => ?_) _
  obtain ⟨hsome, hchecksum⟩ := hkeyed group hgroup
  obtain ⟨rule, hrule⟩ := List.exists_mem_of_ne_nil _ hsome
  have hmem : rule ∈ rules := hperm.mem_iff.mp (List.mem_flatMap.mpr ⟨group, hgroup, hrule⟩)
  rw [← hchecksum rule hrule]
  exact of_decide_eq_true (hloads rule hmem)

/-! ### What a request runs -/

/-- Rules join the slots of their kinds, and no rule of another kind matters to a slot. -/
theorem slot_foldl_join (placed : List Placed) (chain : ProcessorChain) (kind : PluginKind) :
    (placed.foldl (fun chain placed => placed.join chain) chain).slot kind =
      ((placed.filter fun placed => placed.rule.kind = kind).map fun placed =>
        Processor.new placed.rule).foldl insertSorted (chain.slot kind) := by
  induction placed generalizing chain with
  | nil => rfl
  | cons this placed ih =>
    rw [List.foldl_cons, ih, slot_join, List.filter_cons]
    by_cases hkind : this.rule.kind = kind
    · rw [if_pos hkind, if_pos (decide_eq_true hkind)]
      rfl
    · rw [if_neg hkind, if_neg (by simpa using hkind)]

/-- Plugins added one by one, each sorted in, are all there and sorted. -/
theorem foldl_insertSorted (processors chain : List Processor)
    (hsorted : chain.Pairwise fun a b => b.rank ≤ a.rank) :
    (processors.foldl insertSorted chain).Perm (chain ++ processors) ∧
      (processors.foldl insertSorted chain).Pairwise fun a b => b.rank ≤ a.rank := by
  induction processors generalizing chain with
  | nil => exact ⟨by rw [List.append_nil]; exact .refl _, hsorted⟩
  | cons processor processors ih =>
    obtain ⟨hperm, hsorted'⟩ := ih (insertSorted chain processor) (pairwise_heaviestFirst _ _)
    refine ⟨hperm.trans (((heaviestFirst_perm _ _).append_right _).trans ?_), hsorted'⟩
    rw [List.append_assoc]
    exact .refl _

/-- The rules of one kind that a request runs. -/
def running (loader : Loader) (rules : List PluginRule) (identity : Identity) (api : ApiId)
    (kind : PluginKind) : List PluginRule :=
  rules.filter fun rule => loader.loads rule && decide (rule.kind = kind) &&
    rule.appliesTo identity.tenant identity.user api

theorem tenant_of_appliesTo {rule : PluginRule} {tenant : TenantId} {user : UserId} {api : ApiId}
    (h : rule.appliesTo tenant user api = true) :
    rule.scope.tenant? = none ∨ rule.scope.tenant? = some tenant := by
  unfold PluginRule.appliesTo PluginScope.contains at h
  split at h
  · rename_i hscope
    rw [hscope]
    exact .inl rfl
  · rename_i owner onlyUser onlyApi hscope
    rw [hscope]
    simp only [Bool.and_eq_true, beq_iff_eq] at h
    exact .inr (congrArg some h.1.1)

theorem filed_running {rules : List PluginRule} {chains : PluginChains}
    (h : fromRules loader rules = .ok chains) (identity : Identity) (api : ApiId) (kind : PluginKind)
    (tenant : Option TenantId) :
    ((((chains.filed tenant).filter fun placed => placed.rule.appliesTo identity.tenant identity.user api).filter
        fun placed => placed.rule.kind = kind).map fun placed => Processor.new placed.rule).Perm
      (((running loader rules identity api kind).filter fun rule => rule.scope.tenant? = tenant).map
        Processor.new) := by
  refine ((((filed_fromRules h tenant).filter _).filter _).map _).trans (.of_eq ?_)
  rw [List.filter_map, List.filter_map, List.map_map, List.filter_filter, List.filter_filter, running,
    List.filter_filter]
  congr 1
  refine List.filter_congr fun rule _ => ?_
  show ((decide (rule.kind = kind) && rule.appliesTo identity.tenant identity.user api) &&
    (loader.loads rule && decide (rule.scope.tenant? = tenant))) = _
  cases loader.loads rule <;> cases rule.appliesTo identity.tenant identity.user api <;>
    cases decide (rule.kind = kind) <;> cases decide (rule.scope.tenant? = tenant) <;> rfl

/-- **What a slot holds**: the rules of its kind that the request runs, sorted by their orders. -/
theorem slot_chainsFor {rules : List PluginRule} {chains : PluginChains}
    (h : fromRules loader rules = .ok chains) (identity : Identity) (api : ApiId) (kind : PluginKind) :
    ((chains.chainsFor identity api).slot kind).Perm
        ((running loader rules identity api kind).map Processor.new) ∧
      ((chains.chainsFor identity api).slot kind).Pairwise fun a b => b.rank ≤ a.rank := by
  have hnew : ProcessorChain.new.slot kind = [] := by cases kind <;> rfl
  rw [chainsFor, slot_foldl_join, hnew]
  obtain ⟨hperm, hsorted⟩ := foldl_insertSorted
    ((((chains.global ++ chains.tenants identity.tenant).filter fun placed =>
      placed.rule.appliesTo identity.tenant identity.user api).filter fun placed =>
        placed.rule.kind = kind).map fun placed => Processor.new placed.rule) [] .nil
  refine ⟨hperm.trans ?_, hsorted⟩
  rw [List.nil_append, List.filter_append, List.filter_append, List.map_append]
  refine ((filed_running h identity api kind none).append
    (filed_running h identity api kind (some identity.tenant))).trans ?_
  rw [← List.map_append]
  refine List.Perm.map _ ?_
  have hrest : (running loader rules identity api kind).filter
      (fun rule => rule.scope.tenant? = some identity.tenant)
      = (running loader rules identity api kind).filter fun rule => !decide (rule.scope.tenant? = none) := by
    refine List.filter_congr fun rule hrule => ?_
    have happlies := (Bool.and_eq_true_iff.mp (List.mem_filter.mp hrule).2).2
    rcases tenant_of_appliesTo happlies with hnone | hsome
    · rw [hnone]
      rfl
    · rw [hsome]
      simp
  rw [hrest]
  exact List.filter_append_perm _ _

theorem rank_lt_of_global {a b : PluginRule} (ha : a.scope = .global) (hb : b.scope ≠ .global) :
    (Processor.new a).rank < (Processor.new b).rank := by
  have hprimary : ∀ rule : PluginRule, rule.order.isPrimary = rule.scope.isGlobal := by
    intro rule
    have hchecked := rule.checked
    unfold checkOrder at hchecked
    split at hchecked
    · rename_i heq
      exact heq
    · cases hchecked
  have hlow := hprimary a
  have hhigh := hprimary b
  rw [ha] at hlow
  have hnot : b.scope.isGlobal = false := by
    cases hscope : b.scope with
    | global => exact absurd hscope hb
    | tenant _ _ _ => rfl
  rw [hnot] at hhigh
  have hlow := of_decide_eq_true hlow
  have hhigh := of_decide_eq_false hhigh
  show a.order.get.toNat < b.order.get.toNat
  rw [UInt8.le_iff_toNat_le] at hlow hhigh
  omega

end PluginChains

/-- No two rules of one tenant, or of the global chain, are of one kind and order. -/
def Apart (rules : List PluginRule) : Prop :=
  rules.Pairwise fun a b => ¬ (a.scope.tenant? = b.scope.tenant? ∧ a.kind = b.kind ∧ a.order = b.order)

theorem Apart.nodup {rules : List PluginRule} (h : Apart rules) : rules.Nodup := by
  refine List.Pairwise.imp (fun {a b} hapart heq => hapart ?_) h
  rw [heq]
  exact ⟨rfl, rfl, rfl⟩

/-- Of two rules that one request runs in one slot, the orders differ. -/
theorem Apart.eq_of_rank {rules : List PluginRule} (h : Apart rules) {loader : Loader} {identity : Identity}
    {api : ApiId} {kind : PluginKind} {a b : PluginRule}
    (ha : a ∈ PluginChains.running loader rules identity api kind)
    (hb : b ∈ PluginChains.running loader rules identity api kind)
    (hrank : (Processor.new a).rank = (Processor.new b).rank) : a = b := by
  by_contra hne
  obtain ⟨harules, hawhat⟩ := List.mem_filter.mp ha
  obtain ⟨hbrules, hbwhat⟩ := List.mem_filter.mp hb
  simp only [Bool.and_eq_true, decide_eq_true_eq] at hawhat hbwhat
  have : Std.Symm fun a b : PluginRule =>
      ¬ (a.scope.tenant? = b.scope.tenant? ∧ a.kind = b.kind ∧ a.order = b.order) :=
    ⟨fun a b h hsame => h ⟨hsame.1.symm, hsame.2.1.symm, hsame.2.2.symm⟩⟩
  have horder : a.order = b.order := congrArg PluginOrder.mk (UInt8.toNat_inj.mp hrank)
  -- a rule of every flow and one of the tenant's would be of different orders already
  have htenant : a.scope.tenant? = b.scope.tenant? := by
    cases hascope : a.scope with
    | global =>
      cases hbscope : b.scope with
      | global => rfl
      | tenant _ _ _ =>
        exact absurd hrank (PluginChains.rank_lt_of_global hascope (by rw [hbscope]; nofun)).ne
    | tenant _ _ _ =>
      cases hbscope : b.scope with
      | global => exact absurd hrank (PluginChains.rank_lt_of_global hbscope (by rw [hascope]; nofun)).ne'
      | tenant _ _ _ =>
        have hatenant := PluginChains.tenant_of_appliesTo hawhat.2
        have hbtenant := PluginChains.tenant_of_appliesTo hbwhat.2
        rw [hascope] at hatenant
        rw [hbscope] at hbtenant
        rw [hatenant.resolve_left nofun, hbtenant.resolve_left nofun]
  exact List.Pairwise.forall h harules hbrules hne ⟨htenant, hawhat.1.2.trans hbwhat.1.2.symm, horder⟩

theorem Apart.pairwise_rank {rules : List PluginRule} (h : Apart rules) (loader : Loader)
    (identity : Identity) (api : ApiId) (kind : PluginKind) :
    (heaviestFirst (fun rule => (Processor.new rule).rank)
      (PluginChains.running loader rules identity api kind)).Pairwise
        fun a b => (Processor.new b).rank < (Processor.new a).rank := by
  have hnodup := (heaviestFirst_perm (fun rule => (Processor.new rule).rank)
    (PluginChains.running loader rules identity api kind)).nodup_iff.mpr (h.nodup.filter _)
  refine ((pairwise_heaviestFirst _ _).and hnodup).imp_of_mem fun ha hb hpair => ?_
  refine Nat.lt_of_le_of_ne hpair.1 fun heq => hpair.2 ?_
  exact h.eq_of_rank ((mem_heaviestFirst _).mp ha) ((mem_heaviestFirst _).mp hb) heq.symm

theorem Apart.of_perm {rules rules' : List PluginRule} (h : Apart rules) (hperm : rules'.Perm rules) :
    Apart rules' := by
  refine (hperm.pairwise_iff fun {a b} hab hsame => hab ?_).mpr h
  exact ⟨hsame.1.symm, hsame.2.1.symm, hsame.2.2.symm⟩

theorem Apart.slot_eq {rules : List PluginRule} (h : Apart rules) {loader : Loader} {chains : PluginChains}
    (hchains : PluginChains.fromRules loader rules = .ok chains) (identity : Identity) (api : ApiId)
    (kind : PluginKind) :
    (chains.chainsFor identity api).slot kind =
      (heaviestFirst (fun rule => (Processor.new rule).rank)
        (PluginChains.running loader rules identity api kind)).map Processor.new := by
  obtain ⟨hperm, hsorted⟩ := PluginChains.slot_chainsFor hchains identity api kind
  rw [eq_heaviestFirst Processor.rank hperm hsorted, heaviestFirst_map]
  intro p hp q hq hrank
  obtain ⟨a, ha, rfl⟩ := List.mem_map.mp hp
  obtain ⟨b, hb, rfl⟩ := List.mem_map.mp hq
  rw [h.eq_of_rank ha hb hrank]

/-- **A request runs exactly its own plugins, in order.**  For every set of rules of which no two of one
tenant, or of the global chain, share kind and order, and all of whose plugins load, the chains handed out
for any tenant, account and api hold in each slot the rules of its kind whose scope contains the request,
each once and no other, none of another tenant; highest order first without ties, and every tenant's rule
before every global one.  The order the rules were read in makes no difference. -/
theorem chains_exact {loader : Loader} {rules : List PluginRule} (hapart : Apart rules)
    (hloads : ∀ rule ∈ rules, loader.loadFailure rule.checksum = .ok none) :
    ∃ chains, PluginChains.fromRules loader rules = .ok chains ∧
      (∀ identity api kind, ∃ placed : List PluginRule,
        (chains.chainsFor identity api).slot kind = placed.map Processor.new ∧ placed.Nodup ∧
        (∀ rule, rule ∈ placed ↔ rule ∈ rules ∧ rule.kind = kind ∧
          rule.scope.contains identity.tenant identity.user api = true) ∧
        (∀ rule ∈ placed, ∀ tenant, rule.scope.tenant? = some tenant → tenant = identity.tenant) ∧
        placed.Pairwise (fun a b => b.order.get < a.order.get) ∧
        placed.Pairwise (fun a b => a.scope = .global → b.scope = .global)) ∧
      ∀ rules' : List PluginRule, rules'.Perm rules →
        ∃ chains', PluginChains.fromRules loader rules' = .ok chains' ∧
          ∀ identity api, chains'.chainsFor identity api = chains.chainsFor identity api := by
  have hloads' : ∀ rule ∈ rules, loader.loads rule = true := fun rule hrule =>
    decide_eq_true (hloads rule hrule)
  obtain ⟨chains, hchains⟩ := PluginChains.exists_fromRules hloads'
  refine ⟨chains, hchains, fun identity api kind => ?_, fun rules' hperm => ?_⟩
  · refine ⟨_, hapart.slot_eq hchains identity api kind, ?_, fun rule => ?_, fun rule hrule tenant htenant => ?_,
      ?_, ?_⟩
    · exact (heaviestFirst_perm _ _).nodup_iff.mpr (hapart.nodup.filter _)
    · rw [mem_heaviestFirst, PluginChains.running, List.mem_filter]
      refine and_congr_right fun hrule => ?_
      rw [hloads' rule hrule, Bool.true_and, Bool.and_eq_true, decide_eq_true_eq]
      exact Iff.rfl
    · have happlies := (Bool.and_eq_true_iff.mp (List.mem_filter.mp ((mem_heaviestFirst _).mp hrule)).2).2
      rcases PluginChains.tenant_of_appliesTo happlies with hnone | hsome
      · rw [hnone] at htenant
        cases htenant
      · exact Option.some.inj (htenant.symm.trans hsome)
    · exact (hapart.pairwise_rank loader identity api kind).imp fun hlt => UInt8.lt_iff_toNat_lt.mpr hlt
    · refine (hapart.pairwise_rank loader identity api kind).imp fun {a b} hlt hglobal => ?_
      by_contra hnot
      have hgt := PluginChains.rank_lt_of_global hglobal hnot
      omega
  · have hapart' := hapart.of_perm hperm
    obtain ⟨chains', hchains'⟩ := PluginChains.exists_fromRules fun rule hrule =>
      hloads' rule (hperm.mem_iff.mp hrule)
    refine ⟨chains', hchains', fun identity api => ProcessorChain.ext_slot fun kind => ?_⟩
    rw [hapart'.slot_eq hchains', hapart.slot_eq hchains]
    refine congrArg _ (eq_heaviestFirst _ ((heaviestFirst_perm _ _).trans (hperm.filter _))
      (pairwise_heaviestFirst _ _) fun a ha b hb hrank => ?_)
    exact hapart.eq_of_rank ha hb hrank

/-- A store that has every plugin, all of which load. -/
def everyPlugin : Loader := ⟨fun _ => .ok (some []), fun _ _ => .ok ()⟩

/-- One plugin for every flow, and one for what a single account of a tenant is sent. -/
def narrowedRules : List PluginRule :=
  [⟨⟨List.replicate 32 1, rfl⟩, .respBody, ⟨10⟩, .global, rfl⟩,
    ⟨⟨List.replicate 32 2, rfl⟩, .respBody, ⟨100⟩, .tenant acme (some alice) none, rfl⟩]

def chat : ApiId := ⟨"chat", by decide, by decide, by decide⟩

def memberIdentity (user : UserId) : Identity := ⟨user, acme, .member⟩

/-- The account runs both plugins, another account of its tenant the one for every flow. -/
theorem chains_exact_narrowed :
    Apart narrowedRules ∧
      ∃ chains, PluginChains.fromRules everyPlugin narrowedRules = .ok chains ∧
        ((chains.chainsFor (memberIdentity alice) chat).slot .respBody).length = 2 ∧
        ((chains.chainsFor (memberIdentity bob) chat).slot .respBody).length = 1 := by
  have hapart : Apart narrowedRules := by
    unfold Apart narrowedRules
    simp [PluginScope.tenant?]
  obtain ⟨chains, hchains, -, -⟩ := @chains_exact everyPlugin narrowedRules hapart fun _ _ => rfl
  have htest : ((PluginChains.fromRules everyPlugin narrowedRules).toOption.any fun chains =>
      ((chains.chainsFor (memberIdentity alice) chat).slot .respBody).length == 2 &&
        ((chains.chainsFor (memberIdentity bob) chat).slot .respBody).length == 1) = true := by
    decide +kernel
  rw [hchains] at htest
  simp only [Except.toOption, Option.any_some, Bool.and_eq_true, beq_iff_eq] at htest
  exact ⟨hapart, chains, hchains, htest⟩

end IntelliPrism.Plugins
