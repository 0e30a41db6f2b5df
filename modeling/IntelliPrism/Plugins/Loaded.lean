import IntelliPrism.Lib.Rely
import IntelliPrism.Plugins.Chains

/-!
# The plugins a node has loaded

A reload loads the plugins its rules name and puts the chains in force; a request picks its chains and calls
the plugins in them later, when other reloads may have come by.  The calls of both fall in any order.

* `Node.loading` — what they keep: nothing is put in force before it is loaded, and nothing is unloaded;
* `Node.plugin_called_is_loaded` — **a request never calls a plugin that is not loaded**.
-/

namespace IntelliPrism.Plugins

open IntelliPrism.Core IntelliPrism.Lib IntelliPrism.Manage

/-- What is shared: the checksums the host has a module under, and the chains in force. -/
structure Node where
  loaded : List Checksum
  chains : PluginChains

/-- The calls to it, and the one to the store. -/
inductive NodeCall where
  | plugin (checksum : Checksum)
  | isLoaded (checksum : Checksum)
  | insert (checksum : Checksum)
  | replace (chains : PluginChains)
  | chainsInForce
  | instantiate (checksum : Checksum)

/-- An instantiation answers whether the module was there. -/
abbrev NodeCall.Res : NodeCall → Type
  | .plugin _ => Except StorageError (Option Bytes)
  | .isLoaded _ | .instantiate _ => Bool
  | .insert _ | .replace _ => Unit
  | .chainsInForce => PluginChains

namespace Node

/-- What the store answers is the environment's, and may be something else each time. -/
def handle : Handler (Except StorageError (Option Bytes)) Node NodeCall NodeCall.Res := fun stored call node =>
  match call with
  | .plugin _ => (node, stored)
  | .isLoaded checksum | .instantiate checksum => (node, decide (checksum ∈ node.loaded))
  | .insert checksum => ({ node with loaded := checksum :: node.loaded }, ())
  | .replace chains => ({ node with chains := chains }, ())
  | .chainsInForce => (node, node.chains)

abbrev Text (α : Type) := Process NodeCall NodeCall.Res α

def ask (call : NodeCall) : Text call.Res := .call call .done

/-- Reads a plugin and loads it.  `compile` is every check between the look and the insertion. -/
def loadFailure (compile : Checksum → Bytes → Except String Unit) (checksum : Checksum) :
    Text (Except ChainError (Option String)) := do
  match ← ask (.plugin checksum) with
  | .error error => pure (.error (.storage error))
  | .ok none => pure (.ok (some "it is not in the plugin store"))
  | .ok (some wasm) =>
    if ← ask (.isLoaded checksum) then pure (.ok none)
    else
      match compile checksum wasm with
      | .error detail => pure (.ok (some detail))
      | .ok () => do
        ask (.insert checksum)
        pure (.ok none)

def fileAll (compile : Checksum → Bytes → Except String Unit) :
    ByPlugin → PluginChains → Text (Except ChainError PluginChains)
  | [], chains => pure (.ok chains)
  | (checksum, placed) :: rest, chains => do
    match ← loadFailure compile checksum with
    | .error error => pure (.error error)
    | .ok (some detail) =>
      if placed.any fun rule => rule.scope == .global then pure (.error (.globalPlugin checksum detail))
      else fileAll compile rest chains
    | .ok none => fileAll compile rest (placed.foldl PluginChains.file chains)

/-- Calls plugins until one is not loaded, and answers whether all were. -/
def callAll : List Processor → Text Bool
  | [] => pure true
  | processor :: rest => do
    if ← ask (.instantiate processor.checksum) then callAll rest else pure false

/-- A reload of some rules, or a request that comes to some of the points plugins act at. -/
inductive Job where
  | reload (rules : List PluginRule)
  | request (identity : Identity) (api : ApiId) (points : List PluginKind)

def noChains : PluginChains := ⟨[], fun _ => []⟩

def serve (compile : Checksum → Bytes → Except String Unit) : Job → Text Bool
  | .reload rules => do
    match ← fileAll compile (rules.foldl (fun byPlugin rule => ByPlugin.push rule byPlugin) []) noChains with
    | .error _ => pure false
    | .ok chains => do
      ask (.replace chains)
      pure true
  | .request identity api points => do
    let chains ← ask .chainsInForce
    callAll (points.flatMap (chains.chainsFor identity api).slot)

/-! ### What they keep -/

/-- Every rule in the chains runs a plugin that is loaded. -/
def Has (node : Node) (chains : PluginChains) : Prop :=
  ∀ tenant, ∀ placed ∈ chains.filed tenant, placed.rule.checksum ∈ node.loaded

/-- Only what is loaded is put in force or called. -/
def May (node : Node) : NodeCall → Prop
  | .replace chains => node.Has chains
  | .instantiate checksum => checksum ∈ node.loaded
  | _ => True

/-- What is in force is loaded, and everybody bears that more is. -/
def loading : Discipline handle Job where
  holds node := node.Has node.chains
  bears _ node node' := node.loaded ⊆ node'.loaded
  may _ := May
  bears_refl _ _ := fun _ => id
  bears_trans h₁ h₂ := fun _ h => h₂ (h₁ h)
  keeps := by
    intro _ _ op node hnode hmay
    cases op with
    | insert checksum => exact fun tenant placed h => List.mem_cons_of_mem _ (hnode tenant placed h)
    | replace chains => exact hmay
    | _ => exact hnode

variable {compile : Checksum → Bytes → Except String Unit} {job : Job} {node node' : Node}
  {chains : PluginChains}

theorem Has.mono (h : node.Has chains) (hgrows : node.loaded ⊆ node'.loaded) : node'.Has chains :=
  fun tenant placed hplaced => hgrows (h tenant placed hplaced)

theorem has_noChains (node : Node) : node.Has noChains := by
  intro tenant placed hplaced
  cases tenant <;> cases hplaced

theorem Has.slot (h : node.Has chains) {identity : Identity} {api : ApiId} {kind : PluginKind}
    {processor : Processor} (hmem : processor ∈ (chains.chainsFor identity api).slot kind) :
    processor.checksum ∈ node.loaded := by
  have hnew : ProcessorChain.new.slot kind = [] := by cases kind <;> rfl
  rw [PluginChains.chainsFor, PluginChains.slot_foldl_join, hnew] at hmem
  obtain ⟨placed, hplaced, rfl⟩ :=
    List.mem_map.mp ((PluginChains.foldl_insertSorted _ [] .nil).1.mem_iff.mp hmem)
  rcases List.mem_append.mp (List.mem_filter.mp (List.mem_filter.mp hplaced).1).1 with hglobal | htenant
  · exact h none placed hglobal
  · exact h (some identity.tenant) placed htenant

theorem loadFailure_always (checksum : Checksum) (node : Node) :
    loading.Always job (fun failure node' => node.loaded ⊆ node'.loaded ∧
      (failure = .ok none → checksum ∈ node'.loaded)) (loadFailure compile checksum) node := by
  refine fun _ h₁ _ => ⟨trivial, fun stored => ?_⟩
  rcases stored with error | (_ | wasm)
  · exact fun _ h₂ _ => ⟨fun _ h => h₂ (h₁ h), fun h => by cases h⟩
  · exact fun _ h₂ _ => ⟨fun _ h => h₂ (h₁ h), fun h => by cases h⟩
  · refine fun node₂ h₂ _ => ⟨trivial, fun _ => ?_⟩
    show loading.Always job _ (if decide (checksum ∈ node₂.loaded) = true then _ else _) node₂
    split
    · rename_i hloaded
      exact fun _ h₃ _ => ⟨fun _ h => h₃ (h₂ (h₁ h)), fun _ => h₃ (of_decide_eq_true hloaded)⟩
    · cases compile checksum wasm with
      | error detail => exact fun _ h₃ _ => ⟨fun _ h => h₃ (h₂ (h₁ h)), fun h => by cases h⟩
      | ok _ =>
        refine fun _ h₃ _ => ⟨trivial, fun _ _ h₄ _ => ⟨fun _ h => ?_, fun _ => h₄ (List.mem_cons_self ..)⟩⟩
        exact h₄ (List.mem_cons_of_mem _ (h₃ (h₂ (h₁ h))))

theorem fileAll_always {groups : ByPlugin} (hnode : loading.holds node)
    (hgroups : ∀ group ∈ groups, ∀ rule ∈ group.2, rule.checksum = group.1) (hchains : node.Has chains) :
    loading.Always job (fun built node => ∀ chains, built = .ok chains → node.Has chains)
      (fileAll compile groups chains) node := by
  induction groups generalizing chains node with
  | nil => exact fun _ h _ _ hbuilt => Except.ok.inj hbuilt ▸ hchains.mono h
  | cons group rest ih =>
    obtain ⟨hgroup, hrest⟩ := List.forall_mem_cons.mp hgroups
    refine Discipline.Always.bind hnode (loadFailure_always group.1 node) fun failure node' hnode' hload => ?_
    obtain ⟨hgrows, hloaded⟩ := hload
    rcases failure with error | (_ | detail)
    · exact fun _ _ _ _ hbuilt => by cases hbuilt
    · refine ih hnode' hrest fun tenant placed hplaced => ?_
      rw [PluginChains.filed_foldl_file, List.mem_append, List.mem_map] at hplaced
      rcases hplaced with hold | ⟨rule, hrule, rfl⟩
      · exact hgrows (hchains tenant placed hold)
      · exact hgroup rule (List.mem_filter.mp hrule).1 ▸ hloaded rfl
    · show loading.Always job _ (if _ then _ else _) node'
      split
      · exact fun _ _ _ _ hbuilt => by cases hbuilt
      · exact ih hnode' hrest (hchains.mono hgrows)

theorem callAll_always {processors : List Processor}
    (h : ∀ processor ∈ processors, processor.checksum ∈ node.loaded) :
    loading.Always job (fun _ _ => True) (callAll processors) node := by
  induction processors generalizing node with
  | nil => exact Discipline.always_true_pure _
  | cons processor rest ih =>
    obtain ⟨hhead, hrest⟩ := List.forall_mem_cons.mp h
    refine fun node' hgrows _ => ⟨hgrows hhead, fun _ => ?_⟩
    show loading.Always job _ (if decide (processor.checksum ∈ node'.loaded) = true then _ else _) node'
    split
    · exact ih fun other hother => hgrows (hrest other hother)
    · exact Discipline.always_true_pure _

/-- **Every reload and every request keeps it.** -/
theorem serve_always (job : Job) (node : Node) (hnode : loading.holds node) :
    loading.Always job (fun _ _ => True) (serve compile job) node := by
  cases job with
  | reload rules =>
    have hkeyed := fun group hgroup => ((byPlugin_rules rules).1 group hgroup).2
    refine Discipline.Always.bind hnode (fileAll_always hnode hkeyed (has_noChains _)) fun built node' _ hbuilt => ?_
    cases built with
    | error error => exact Discipline.always_true_pure _
    | ok chains => exact fun _ hgrows _ => ⟨(hbuilt chains rfl).mono hgrows, fun _ _ _ _ => trivial⟩
  | request identity api points =>
    refine fun node' _ hnode' => ⟨trivial, fun _ => callAll_always fun processor hprocessor => ?_⟩
    obtain ⟨kind, -, hslot⟩ := List.mem_flatMap.mp hprocessor
    exact hnode'.slot hslot

abbrev Thread := Task Job NodeCall NodeCall.Res Bool

/-- Reloads and requests on a node that has loaded nothing. -/
def opening (compile : Checksum → Bytes → Except String Unit) (jobs : List Job) : Pool Node Thread :=
  ⟨⟨[], noChains⟩, jobs.map (Task.of (serve compile))⟩

theorem undisturbed_of_reach {p q : Pool Node Thread} (h : Pool.Reach (Task.step handle) Pool.anyStep p q) :
    Pool.Reach (Task.step handle) loading.Undisturbed p q := by
  refine h.strengthen (I := fun _ => True) trivial fun _ _ _ _ _ _ _ _ _ _ => ⟨?_, trivial⟩
  intro _ _ node' task' _ hstep _ _ _
  obtain ⟨op, _, _, rfl, _⟩ := Task.step_eq_some.mp hstep
  cases op with
  | insert checksum => exact List.subset_cons_self ..
  | _ => exact fun _ => id

/-- The plugin a text is about to instantiate. -/
def calling : Text Bool → Option Checksum
  | .call (.instantiate checksum) _ => some checksum
  | _ => none

/-- **A request never calls a plugin that is not loaded.**  However reloads and requests fall in between one
another, and whatever the store answers, a request that is about to instantiate a plugin finds its module. -/
theorem plugin_called_is_loaded {jobs : List Job} {q : Pool Node Thread}
    (h : Pool.Reach (Task.step handle) Pool.anyStep (opening compile jobs) q) {thread : Thread}
    (hthread : thread ∈ q.threads) {checksum : Checksum} (hcalling : calling thread.rest = some checksum) :
    checksum ∈ q.shared.loaded := by
  have hnone : loading.holds ⟨[], noChains⟩ := has_noChains _
  unfold calling at hcalling
  split at hcalling
  · rename_i hrest
    cases hcalling
    exact Discipline.may_of_reach serve_always hnone (undisturbed_of_reach h) hthread hrest
  · cases hcalling

/-- A reload puts two plugins in force, and a request is about to call one. -/
theorem plugin_called_after_reload : ∃ jobs q thread checksum,
    Pool.Reach (Task.step handle) Pool.anyStep (opening (fun _ _ => .ok ()) jobs) q ∧
      thread ∈ q.threads ∧ calling thread.rest = some checksum ∧ checksum ∈ q.shared.loaded := by
  have hrun : (Pool.run (Task.step handle) Pool.anyStep (opening (fun _ _ => .ok ())
      [.reload narrowedRules, .request (memberIdentity Gateway.alice) chat [.respBody]])
      ([0, 0, 0, 0, 0, 0, 0, 1].map fun i => (i, .ok (some [])))).any
      (fun q => q.threads.any fun thread => (calling thread.rest).isSome) = true := by
    decide +kernel
  obtain ⟨q, hq, htest⟩ := Pool.exists_reach_of_run hrun
  obtain ⟨thread, hthread, hcalling⟩ := List.any_eq_true.mp htest
  obtain ⟨checksum, hcalling⟩ := Option.isSome_iff_exists.mp hcalling
  exact ⟨_, q, thread, checksum, hq, hthread, hcalling, plugin_called_is_loaded hq hthread hcalling⟩

end Node

end IntelliPrism.Plugins
