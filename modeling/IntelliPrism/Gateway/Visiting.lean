import IntelliPrism.Gateway.Admission
import Mathlib.Data.List.Nodup
import Mathlib.Data.List.Pairwise

/-!
# The limits that decide, in every order

The loop over the limits fills a hash map, and `admit` goes over its values in whatever order they come.
Which limits are in the map does not depend on the order of either; what `admit` leaves behind does,
because it stops at the first limit that refuses.

* `applyingTo_narrowest` — **what `applying_to` returns**: one limit for each pair, narrower than every
  other whose scope holds the request, and the same limits for every arrangement of the list;
* `reached`, `counts_admit_reached`, `counts_admit_unreached` — the limits a walk gets to, and what it
  leaves under their keys and under every other;
* `admit_order_iff` — **when the order does not matter**: every rate that decides is counted, in every
  order, exactly when no limit that refuses stands beside a rate.
-/

namespace IntelliPrism.Gateway

open IntelliPrism.Lib IntelliPrism.Core IntelliPrism.Cache

/-! ### The narrowest -/

/-- No two limits share their scope, what they count and over what period. -/
def Apart (limits : List Limit) : Prop :=
  limits.Pairwise fun a b => a.scope = b.scope → a.pair ≠ b.pair

theorem Apart.eq {limits : List Limit} (h : Apart limits) {a b : Limit} (ha : a ∈ limits)
    (hb : b ∈ limits) (hscope : a.scope = b.scope) (hpair : a.pair = b.pair) : a = b := by
  have hkeys : (limits.map fun limit => (limit.scope, limit.pair)).Nodup := by
    refine List.pairwise_map.mpr (h.imp ?_)
    intro a b hab heq
    exact hab (congrArg Prod.fst heq) (congrArg Prod.snd heq)
  exact List.inj_on_of_nodup_map hkeys ha hb (Prod.ext hscope hpair)

/-- Of limits that are apart, the one that decides is narrower than every other for its pair. -/
theorem Decides.lt_of_apart {limits : List Limit} {asking : Asking} {limit other : Limit}
    (hapart : Apart limits) (h : Decides limits asking limit) (hother : other ∈ limits)
    (hne : other ≠ limit) (hholds : other.holds asking = true) (hpair : other.pair = limit.pair) :
    other.narrowness < limit.narrowness := by
  refine Nat.lt_of_le_of_ne (h.narrowest hother hholds hpair) ?_
  intro heq
  exact hne (hapart.eq hother h.mem (LimitScope.eq_of_holds hholds h.1 heq) hpair)

/-- Of limits that are apart, deciding says nothing about the order they are listed in. -/
theorem decides_iff_of_apart {limits : List Limit} {asking : Asking} {limit : Limit}
    (hapart : Apart limits) :
    Decides limits asking limit ↔ limit ∈ limits ∧ Narrowest limits asking limit := by
  constructor
  · intro h
    exact ⟨h.mem, h.1, fun other hother hholds hpair => h.narrowest hother hholds hpair⟩
  · intro ⟨hmem, hnarrowest⟩
    obtain ⟨other, hdecides, hkey⟩ := (exists_decides_counter_iff .epoch hmem).mpr hnarrowest
    obtain ⟨hscope, hpair⟩ := counter_eq_iff.mp hkey
    rwa [← hapart.eq hdecides.mem hmem hscope hpair]

theorem nodup_applyingTo (order : HashOrder) (limits : List Limit) (asking : Asking) :
    (applyingTo order limits asking).Nodup := by
  refine (applyingTo_pairwise order limits asking).imp ?_
  intro a b hpair heq
  exact hpair (congrArg Limit.pair heq)

theorem eq_of_mem_applyingTo {order : HashOrder} {limits : List Limit} {asking : Asking} {a b : Limit}
    (ha : a ∈ applyingTo order limits asking) (hb : b ∈ applyingTo order limits asking)
    (hpair : a.pair = b.pair) : a = b := by
  have hpairs : ((applyingTo order limits asking).map Limit.pair).Nodup :=
    List.pairwise_map.mpr (applyingTo_pairwise order limits asking)
  exact List.inj_on_of_nodup_map hpairs ha hb hpair

theorem filter_applyingTo {order : HashOrder} {limits : List Limit} {asking : Asking} {limit : Limit}
    (h : Decides limits asking limit) :
    (applyingTo order limits asking).filter (fun other => other.pair = limit.pair) = [limit] := by
  have hmem := (mem_applyingTo order).mpr h
  refine List.perm_singleton.mp ((List.perm_ext_iff_of_nodup
    ((nodup_applyingTo order limits asking).filter _) (List.nodup_singleton limit)).mpr ?_)
  intro other
  rw [List.mem_filter, List.mem_singleton, decide_eq_true_eq]
  constructor
  · intro ⟨hother, hpair⟩
    exact eq_of_mem_applyingTo hother hmem hpair
  · intro heq
    exact ⟨heq ▸ hmem, congrArg Limit.pair heq⟩

/-- **The narrowest limit decides, whatever the order.**  For a pair with a limit whose scope holds the
request one limit is returned, narrower than every other such; for a pair without, none; and another
arrangement of the list, or of the map, returns the same limits. -/
theorem applyingTo_narrowest {limits : List Limit} (hapart : Apart limits) (asking : Asking)
    (order : HashOrder) :
    (∀ pair, (∃ limit ∈ limits, limit.holds asking = true ∧ limit.pair = pair) →
      ∃ limit ∈ limits,
        (applyingTo order limits asking).filter (fun other => other.pair = pair) = [limit] ∧
        limit.holds asking = true ∧ limit.pair = pair ∧
        ∀ other ∈ limits, other ≠ limit → other.holds asking = true → other.pair = pair →
          other.narrowness < limit.narrowness) ∧
    (∀ pair, (¬∃ limit ∈ limits, limit.holds asking = true ∧ limit.pair = pair) →
      (applyingTo order limits asking).filter (fun other => other.pair = pair) = []) ∧
    ∀ arranged : List Limit, arranged.Perm limits → ∀ order' : HashOrder,
      (applyingTo order' arranged asking).Perm (applyingTo order limits asking) := by
  refine ⟨?_, ?_, ?_⟩
  · intro pair ⟨held, hheld, hholds, hpair⟩
    obtain ⟨limit, hdecides, hsame⟩ := exists_decides hheld hholds
    have hlimit : limit.pair = pair := hsame.trans hpair
    refine ⟨limit, hdecides.mem, ?_, hdecides.1, hlimit, ?_⟩
    · rw [← hlimit]
      exact filter_applyingTo hdecides
    · intro other hother hne hoth hpair'
      exact hdecides.lt_of_apart hapart hother hne hoth (hpair'.trans hlimit.symm)
  · intro pair hnone
    rw [List.filter_eq_nil_iff]
    intro limit hmem hpair
    have hdecides := (mem_applyingTo order).mp hmem
    exact hnone ⟨limit, hdecides.mem, hdecides.1, of_decide_eq_true hpair⟩
  · intro arranged hperm order'
    have hsame : Apart arranged :=
      (hperm.pairwise_iff fun {_ _} hab hs hp => hab hs.symm hp.symm).mpr hapart
    refine (List.perm_ext_iff_of_nodup (nodup_applyingTo _ _ _) (nodup_applyingTo _ _ _)).mpr ?_
    intro limit
    rw [mem_applyingTo, mem_applyingTo, decides_iff_of_apart hsame, decides_iff_of_apart hapart]
    simp only [Narrowest, hperm.mem_iff]

def once : Allowance := ⟨1, Nat.one_ne_zero⟩

/-- A tenant's limit and one of its accounts', which decides for that account. -/
theorem applyingTo_account :
    Apart [tenantWide .requests once, onAccount alice .requests once] ∧
      (applyingTo .asPut [onAccount alice .requests once, tenantWide .requests once] (.of alice)).Perm
        (applyingTo .asPut [tenantWide .requests once, onAccount alice .requests once] (.of alice)) := by
  have hapart : Apart [tenantWide .requests once, onAccount alice .requests once] := by
    unfold Apart
    decide
  exact ⟨hapart, (applyingTo_narrowest hapart (.of alice) .asPut).2.2 _ (List.Perm.swap ..) .asPut⟩

/-! ### The limits a walk gets to -/

/-- What a check that goes through adds to the count it read. -/
def Limit.raise (limit : Limit) : ℕ :=
  match limit.counted with
  | .requests => 1
  | .tokens => 0

/-- The limits a walk gets to: up to the first that refuses, and that one. -/
def reached (w : World) (now : Timestamp) : List Limit → List Limit
  | [] => []
  | limit :: rest => if w.refuses limit now then [limit] else limit :: reached w now rest

section Reached

variable {w : World} {now : Timestamp} {x : Weather}

theorem reached_subset (limits : List Limit) : reached w now limits ⊆ limits := by
  induction limits with
  | nil => simp [reached]
  | cons limit rest ih =>
    unfold reached
    split
    · simp
    · exact List.cons_subset_cons limit ih

theorem exists_refuses_of_unreached {limits : List Limit} {limit : Limit} (hmem : limit ∈ limits)
    (h : limit ∉ reached w now limits) :
    ∃ spent ∈ limits, w.refuses spent now = true ∧ spent ≠ limit := by
  induction limits with
  | nil => cases hmem
  | cons first rest ih =>
    unfold reached at h
    split at h
    · rename_i hrefuses
      rw [List.mem_singleton] at h
      exact ⟨first, List.mem_cons_self .., hrefuses, fun heq => h heq.symm⟩
    · rw [List.mem_cons, not_or] at h
      have hrest := (List.mem_cons.mp hmem).resolve_left h.1
      obtain ⟨spent, hspent, hrefuses, hne⟩ := ih hrest h.2
      exact ⟨spent, List.mem_cons_of_mem _ hspent, hrefuses, hne⟩

/-- A check of one limit leaves what other limits' checks decide, and so how far a walk goes. -/
theorem reached_checked {limit : Limit} {rest : List Limit}
    (hapart : ∀ other ∈ rest, limit.pair ≠ other.pair) :
    reached (w.checked limit now) now rest = reached w now rest := by
  induction rest with
  | nil => rfl
  | cons other rest ih =>
    have hread : (w.checked limit now).refuses other now = w.refuses other now := by
      unfold World.refuses
      rw [read_checked (hapart other (List.mem_cons_self ..)).symm]
    simp only [reached, hread, ih fun third hthird => hapart third (List.mem_cons_of_mem _ hthird)]

/-- **What a walk leaves** is what the checks of the limits it gets to leave. -/
theorem exec_visit_reached (hfair : x.fault = none) {limits : List Limit}
    (hapart : limits.Pairwise fun a b => a.pair ≠ b.pair) :
    (Process.exec handle x (visit now limits) w).1
      = (reached w now limits).foldl (fun w limit => w.checked limit now) w := by
  induction limits generalizing w with
  | nil => simp [visit, reached]
  | cons limit rest ih =>
    obtain ⟨hfirst, hrest⟩ := List.pairwise_cons.mp hapart
    rw [exec_visit_cons hfair]
    unfold reached
    split
    · rfl
    · rw [ih hrest, reached_checked hfirst, List.foldl_cons]

/-- A key that none of the limits counts under is left alone by their checks. -/
theorem counts_foldl_other {key : CacheKey} {limits : List Limit}
    (h : ∀ limit ∈ limits, key ≠ (counter limit now).1) :
    (limits.foldl (fun w limit => w.checked limit now) w).counts key = w.counts key := by
  induction limits generalizing w with
  | nil => rfl
  | cons limit rest ih =>
    rw [List.foldl_cons, ih fun other hother => h other (List.mem_cons_of_mem _ hother)]
    exact World.setCount_other w (h limit (List.mem_cons_self ..)) _

/-- The checks of limits that count apart leave each one's reading, and the request on top. -/
theorem counts_foldl_mem {limits : List Limit} (hapart : limits.Pairwise fun a b => a.pair ≠ b.pair)
    {limit : Limit} (hmem : limit ∈ limits) :
    (limits.foldl (fun w limit => w.checked limit now) w).counts (counter limit now).1
      = some (w.read limit now + limit.raise) := by
  induction limits generalizing w with
  | nil => cases hmem
  | cons first rest ih =>
    obtain ⟨hfirst, hrest⟩ := List.pairwise_cons.mp hapart
    rw [List.foldl_cons]
    rcases List.mem_cons.mp hmem with rfl | hlater
    · rw [counts_foldl_other]
      · exact World.setCount_self ..
      · intro other hother hkey
        exact hfirst other hother (counter_eq_iff.mp hkey).2
    · rw [ih hrest hlater, read_checked (hfirst limit hlater).symm]

variable {order : HashOrder} {limits : List Limit} {asking : Asking}

theorem reached_pairwise (order : HashOrder) (limits : List Limit) (asking : Asking) :
    (reached w now (applyingTo order limits asking)).Pairwise fun a b => a.pair ≠ b.pair := by
  have hapart := applyingTo_pairwise order limits asking
  generalize applyingTo order limits asking = visited at hapart
  induction visited with
  | nil => exact .nil
  | cons limit rest ih =>
    obtain ⟨hfirst, hrest⟩ := List.pairwise_cons.mp hapart
    unfold reached
    split
    · exact List.pairwise_singleton _ _
    · exact List.pairwise_cons.mpr ⟨fun other hother => hfirst other (reached_subset rest hother), ih hrest⟩

theorem counts_admit_reached (hfair : x.fault = none) {limit : Limit}
    (h : limit ∈ reached w x.now (applyingTo order limits asking)) :
    (Process.exec handle x (admitRequest order limits asking) w).1.counts (counter limit x.now).1
      = some (w.read limit x.now + limit.raise) := by
  rw [exec_admitRequest, exec_visit_reached hfair (applyingTo_pairwise ..)]
  exact counts_foldl_mem (reached_pairwise order limits asking) h

theorem counts_admit_unreached (hfair : x.fault = none) {key : CacheKey}
    (h : ∀ limit ∈ reached w x.now (applyingTo order limits asking), key ≠ (counter limit x.now).1) :
    (Process.exec handle x (admitRequest order limits asking) w).1.counts key = w.counts key := by
  rw [exec_admitRequest, exec_visit_reached hfair (applyingTo_pairwise ..)]
  exact counts_foldl_other h

/-- A limit that decides and that `admit` does not get to keeps the count it had. -/
theorem counts_admit_missed (hfair : x.fault = none) {limit : Limit} (hdecides : Decides limits asking limit)
    (h : limit ∉ reached w x.now (applyingTo order limits asking)) :
    (Process.exec handle x (admitRequest order limits asking) w).1.counts (counter limit x.now).1
      = w.counts (counter limit x.now).1 := by
  refine counts_admit_unreached hfair ?_
  intro other hother hkey
  have heq : limit = other := eq_of_mem_applyingTo ((mem_applyingTo order).mpr hdecides)
    (reached_subset _ hother) (counter_eq_iff.mp hkey).2
  exact h (heq ▸ hother)

end Reached

/-! ### Every order -/

/-- The order that gives one value first. -/
def HashOrder.leading (first : Limit) : HashOrder where
  arrange values := if first ∈ values then first :: values.erase first else values
  perm values := by
    split
    · rename_i hmem
      exact (List.perm_cons_erase hmem).symm
    · exact .refl _

/-- A limit that refuses and comes first is the only one `admit` gets to. -/
theorem reached_leading {w : World} {now : Timestamp} {limits : List Limit} {asking : Asking}
    {spent : Limit} (h : Decides limits asking spent) (hrefuses : w.refuses spent now = true) :
    reached w now (applyingTo (.leading spent) limits asking) = [spent] := by
  have harrange : applyingTo (.leading spent) limits asking
      = spent :: (deciding limits asking).erase spent := if_pos (mem_deciding.mpr h)
  rw [harrange, reached, if_pos hrefuses]

theorem mem_reached_leading {w : World} {now : Timestamp} {limits : List Limit} {asking : Asking}
    {first : Limit} (h : Decides limits asking first) :
    first ∈ reached w now (applyingTo (.leading first) limits asking) := by
  have harrange : applyingTo (.leading first) limits asking
      = first :: (deciding limits asking).erase first := if_pos (mem_deciding.mpr h)
  rw [harrange, reached]
  split <;> simp

section Order

variable {x : Weather} {w : World} {limits : List Limit} {asking : Asking}

/-- With a limit that refuses first, every other keeps the count it had. -/
theorem counts_admit_leading (hfair : x.fault = none) {spent other : Limit}
    (hspent : Decides limits asking spent) (hother : Decides limits asking other)
    (hrefuses : w.refuses spent x.now = true) (hne : other ≠ spent) :
    (Process.exec handle x (admitRequest (.leading spent) limits asking) w).1.counts
      (counter other x.now).1 = w.counts (counter other x.now).1 := by
  refine counts_admit_missed hfair hother ?_
  rw [reached_leading hspent hrefuses, List.mem_singleton]
  exact hne

/-- What is not held is read as more than nothing, and what is held as it is: either way a count that is
raised is not the count there was. -/
theorem read_add_one_ne (w : World) (limit : Limit) (now : Timestamp) :
    some (w.read limit now + 1) ≠ w.counts (counter limit now).1 := by
  intro heq
  have hread : w.read limit now = (some (w.read limit now + 1)).getD
      (spentIn w.rows (filter limit.scope) limit.counted (limit.period.began now)) := by
    rw [heq]
    rfl
  rw [Option.getD_some] at hread
  omega

/-- A limit beside one that refuses is no rate. -/
def RefusesAlone (w : World) (now : Timestamp) (limits : List Limit) (asking : Asking) : Prop :=
  ∀ spent other, Decides limits asking spent → Decides limits asking other →
    w.refuses spent now = true → other ≠ spent → other.counted = .tokens

/-- A limit beside one that refuses is no rate, and its count is there already. -/
def RefusesUnseen (w : World) (now : Timestamp) (limits : List Limit) (asking : Asking) : Prop :=
  ∀ spent other, Decides limits asking spent → Decides limits asking other →
    w.refuses spent now = true → other ≠ spent →
      other.counted = .tokens ∧ w.counts (counter other now).1 ≠ none

/-- Where no limit that refuses stands beside a rate, `admit` gets to every rate in every order. -/
theorem RefusesAlone.reached (h : RefusesAlone w now limits asking) (order : HashOrder) {limit : Limit}
    (hdecides : Decides limits asking limit) (hrequests : limit.counted = .requests) :
    limit ∈ reached w now (applyingTo order limits asking) := by
  by_contra hmissed
  obtain ⟨spent, hspent, hrefuses, hne⟩ :=
    exists_refuses_of_unreached ((mem_applyingTo order).mpr hdecides) hmissed
  have htokens := h spent limit ((mem_applyingTo order).mp hspent) hdecides hrefuses hne.symm
  rw [hrequests] at htokens
  cases htokens

/-- Where what refuses is not seen by the others, every limit that decides is left with its reading and
its request, whether `admit` gets to it or not. -/
theorem RefusesUnseen.counts (h : RefusesUnseen w x.now limits asking) (hfair : x.fault = none)
    (order : HashOrder) {limit : Limit} (hdecides : Decides limits asking limit) :
    (Process.exec handle x (admitRequest order limits asking) w).1.counts (counter limit x.now).1
      = some (w.read limit x.now + limit.raise) := by
  by_cases hreached : limit ∈ reached w x.now (applyingTo order limits asking)
  · exact counts_admit_reached hfair hreached
  · obtain ⟨spent, hspent, hrefuses, hne⟩ :=
      exists_refuses_of_unreached ((mem_applyingTo order).mpr hdecides) hreached
    obtain ⟨htokens, hheld⟩ := h spent limit ((mem_applyingTo order).mp hspent) hdecides hrefuses hne.symm
    obtain ⟨count, hcount⟩ := Option.ne_none_iff_exists'.mp hheld
    rw [counts_admit_missed hfair hdecides hreached, hcount]
    simp [World.read, hcount, Limit.raise, htokens]

/-- **When the order does not matter.**  Every rate that decides is raised by one in every order exactly
when no limit that refuses stands beside a rate; and the counts come out the same in every order exactly
when, moreover, the quotas beside it have their counts already. -/
theorem admit_order_iff (hfair : x.fault = none) (w : World) (limits : List Limit) (asking : Asking) :
    ((∀ order limit, Decides limits asking limit → limit.counted = .requests →
        (Process.exec handle x (admitRequest order limits asking) w).1.counts (counter limit x.now).1
          = some (w.read limit x.now + 1)) ↔
      RefusesAlone w x.now limits asking) ∧
    ((∀ order order', (Process.exec handle x (admitRequest order limits asking) w).1.counts
        = (Process.exec handle x (admitRequest order' limits asking) w).1.counts) ↔
      RefusesUnseen w x.now limits asking) := by
  refine ⟨⟨?_, ?_⟩, ?_, ?_⟩
  · intro hall spent other hspent hother hrefuses hne
    cases hcounted : other.counted with
    | tokens => rfl
    | requests =>
      have hraised := hall (.leading spent) other hother hcounted
      rw [counts_admit_leading hfair hspent hother hrefuses hne] at hraised
      exact absurd hraised.symm (read_add_one_ne w other x.now)
  · intro halone order limit hdecides hrequests
    rw [counts_admit_reached hfair (halone.reached order hdecides hrequests), Limit.raise, hrequests]
  · intro hall spent other hspent hother hrefuses hne
    have hsame := congrFun (hall (.leading other) (.leading spent)) (counter other x.now).1
    rw [counts_admit_reached hfair (mem_reached_leading hother),
      counts_admit_leading hfair hspent hother hrefuses hne] at hsame
    refine ⟨?_, ?_⟩
    · cases hcounted : other.counted with
      | tokens => rfl
      | requests =>
        rw [Limit.raise, hcounted] at hsame
        exact absurd hsame (read_add_one_ne w other x.now)
    · rw [← hsame]
      exact Option.some_ne_none _
  · intro hunseen order order'
    funext key
    by_cases hkey : ∃ limit, Decides limits asking limit ∧ (counter limit x.now).1 = key
    · obtain ⟨limit, hdecides, rfl⟩ := hkey
      rw [hunseen.counts hfair order hdecides, hunseen.counts hfair order' hdecides]
    · have hleft : ∀ order, (Process.exec handle x (admitRequest order limits asking) w).1.counts key
          = w.counts key := by
        intro order
        refine counts_admit_unreached hfair ?_
        intro limit hlimit heq
        exact hkey ⟨limit, (mem_applyingTo order).mp (reached_subset _ hlimit), heq.symm⟩
      rw [hleft, hleft]

end Order

/-- One request an hour for the whole tenant. -/
def hourly : Limit := ⟨.ofTenant acme, .requests, .hour, once⟩

def twoRates : List Limit := [tenantWide .requests once, hourly]

/-- With nothing counted yet both are counted, in every order. -/
theorem admit_order_of_two_rates :
    RefusesAlone ⟨fun _ => none, []⟩ .epoch twoRates (.of alice) ∧
      ∀ order limit, Decides twoRates (.of alice) limit → limit.counted = .requests →
        (Process.exec handle ⟨.epoch, none⟩ (admitRequest order twoRates (.of alice))
          ⟨fun _ => none, []⟩).1.counts (counter limit .epoch).1
          = some (World.read ⟨fun _ => none, []⟩ limit .epoch + 1) := by
  have hfree : ∀ limit ∈ twoRates, World.refuses ⟨fun _ => none, []⟩ limit .epoch = false := by decide
  have halone : RefusesAlone ⟨fun _ => none, []⟩ .epoch twoRates (.of alice) := by
    intro spent other hspent _ hrefuses
    rw [hfree spent hspent.mem] at hrefuses
    cases hrefuses
  refine ⟨halone, ?_⟩
  exact (@admit_order_iff ⟨.epoch, none⟩ rfl ⟨fun _ => none, []⟩ twoRates (.of alice)).1.mpr halone

/-- **A rate behind a refusal is not counted**: the tenant's one request a minute is spent, and the hour is
counted when it is visited first and not when it is visited second. -/
theorem hour_not_counted_behind_minute :
    (¬∀ (x : Weather) (w : World) (limits : List Limit) (asking : Asking), x.fault = none →
      ∀ order limit, Decides limits asking limit → limit.counted = .requests →
        (Process.exec handle x (admitRequest order limits asking) w).1.counts (counter limit x.now).1
          = some (w.read limit x.now + 1)) ∧
    ¬∀ (x : Weather) (w : World) (limits : List Limit) (asking : Asking), x.fault = none →
      ∀ order order', (Process.exec handle x (admitRequest order limits asking) w).1.counts
        = (Process.exec handle x (admitRequest order' limits asking) w).1.counts := by
  have hsecond : (Process.exec handle ⟨.epoch, none⟩ (admitRequest .asPut twoRates (.of alice))
      (onlySpent (tenantWide .requests once) .epoch)).1.counts (counter hourly .epoch).1 = some 0 := by
    decide +kernel
  have hfirst : (Process.exec handle ⟨.epoch, none⟩ (admitRequest (.leading hourly) twoRates (.of alice))
      (onlySpent (tenantWide .requests once) .epoch)).1.counts (counter hourly .epoch).1 = some 1 := by
    decide +kernel
  have hdecides : Decides twoRates (.of alice) hourly := mem_deciding.mp (by decide)
  refine ⟨?_, ?_⟩
  · intro hall
    have hcounted := hall ⟨.epoch, none⟩ (onlySpent (tenantWide .requests once) .epoch) twoRates (.of alice)
      rfl .asPut hourly hdecides rfl
    rw [hsecond] at hcounted
    exact absurd (Option.some_inj.mp hcounted) (Nat.succ_ne_zero _).symm
  · intro hall
    have hsame := congrFun (hall ⟨.epoch, none⟩ (onlySpent (tenantWide .requests once) .epoch) twoRates
      (.of alice) rfl .asPut (.leading hourly)) (counter hourly .epoch).1
    rw [hsecond, hfirst] at hsame
    cases hsame

end IntelliPrism.Gateway
