import IntelliPrism.Gateway.Alone

/-!
# One more limit

The narrowest limit decides, alone: a limit on a narrower scope takes the place of a wider one for the
requests both hold, and with it everything the wider one had counted.

* `NeverLoosens` — what is refused as spent under a set of limits is so with one more;
* `Displaces` — the further limit is narrower than every limit that decided in its place;
* `neverLoosens_iff` — **one more limit never loosens unless it displaces another**;
* `loosened_for_alice` — a tenant owner lifts the tenant's own limit off one account.
-/

namespace IntelliPrism.Gateway

open IntelliPrism.Lib IntelliPrism.Core IntelliPrism.Cache

/-- Whatever is counted and recorded, a request that is refused as spent is refused as spent with the
further limit set. -/
def NeverLoosens (before after : List Limit) (further : Limit) (asking : Asking) : Prop :=
  ∀ (x : Weather) (w : World) (order order' : HashOrder),
    (Process.exec handle x (admitRequest order (before ++ after) asking) w).2.isSpent = true →
    (Process.exec handle x (admitRequest order' (before ++ further :: after) asking) w).2.isSpent = true

/-- The further limit holds the request, and so do others for its pair, all of them wider. -/
def Displaces (limits : List Limit) (further : Limit) (asking : Asking) : Prop :=
  further.holds asking = true ∧
    (∃ limit ∈ limits, limit.holds asking = true ∧ limit.pair = further.pair) ∧
    ∀ limit ∈ limits, limit.holds asking = true → limit.pair = further.pair →
      limit.narrowness < further.narrowness

section Further

variable {before after : List Limit} {further : Limit} {asking : Asking} {x : Weather} {w : World}

theorem Decides.insert {limit : Limit} (h : Decides (before ++ after) asking limit)
    (hnarrow : further.holds asking = true → further.pair = limit.pair →
      further.narrowness < limit.narrowness) :
    Decides (before ++ further :: after) asking limit := by
  induction after using List.reverseRecOn with
  | nil =>
    rw [List.append_nil] at h
    exact decides_concat.mpr (.inl ⟨h, fun hholds hpair => Nat.le_of_lt (hnarrow hholds hpair)⟩)
  | append_singleton init last ih =>
    rw [← List.append_assoc, decides_concat] at h
    rw [← List.cons_append, ← List.append_assoc, decides_concat]
    rcases h with ⟨hdecides, hlast⟩ | ⟨rfl, hholds, hall⟩
    · exact .inl ⟨ih hdecides, hlast⟩
    · refine .inr ⟨rfl, hholds, ?_⟩
      intro other hother hoth hpair
      rcases List.mem_append.mp hother with hmem | hmem
      · exact hall other (List.mem_append_left _ hmem) hoth hpair
      · rcases List.mem_cons.mp hmem with rfl | hmem
        · exact hnarrow hoth hpair
        · exact hall other (List.mem_append_right _ hmem) hoth hpair

/-- `admit` finds a request spent when nothing fails and a limit that decides refuses it. -/
theorem admitRequest_isSpent_iff (order : HashOrder) (limits : List Limit) :
    (Process.exec handle x (admitRequest order limits asking) w).2.isSpent = true ↔
      x.fault = none ∧ ∃ limit, Decides limits asking limit ∧ w.refuses limit x.now = true := by
  cases hfault : x.fault with
  | some fault =>
    rw [exec_admitRequest, exec_visit_failing hfault]
    simp
  | none =>
    rw [← admitRequest_refused_iff hfault w order, exec_admitRequest]
    simp only [true_and]
    constructor
    · intro hspent hallowed
      rw [hallowed] at hspent
      cases hspent
    · exact (exec_visit_refused hfault (applyingTo_pairwise order limits asking)).2

theorem neverLoosens_of_not_displaces
    (hnew : ∀ limit ∈ before ++ after, limit.scope = further.scope → limit.pair ≠ further.pair)
    (h : ¬Displaces (before ++ after) further asking) : NeverLoosens before after further asking := by
  intro x w order order' hspent
  obtain ⟨hfair, limit, hdecides, hrefuses⟩ := (admitRequest_isSpent_iff order _).mp hspent
  refine (admitRequest_isSpent_iff order' _).mpr ⟨hfair, limit, hdecides.insert ?_, hrefuses⟩
  intro hholds hpair
  by_contra hle
  -- the further limit is as narrow as this one: then it is this scope, or it is narrower than all
  rcases Nat.lt_or_eq_of_le (Nat.not_lt.mp hle) with hlt | heq
  · refine h ⟨hholds, ⟨limit, hdecides.mem, hdecides.1, hpair.symm⟩, ?_⟩
    intro other hother hoth hsame
    exact Nat.lt_of_le_of_lt (hdecides.narrowest hother hoth (hsame.trans hpair)) hlt
  · exact hnew limit hdecides.mem (LimitScope.eq_of_holds hdecides.1 hholds heq) hpair.symm

/-- Everything is at nothing but one limit, which is spent. -/
def onlySpent (limit : Limit) (now : Timestamp) : World where
  counts := Function.update (fun _ => some 0) (counter limit now).1 (some limit.allowance.get)
  rows := []

theorem refuses_onlySpent {limit other : Limit} {now : Timestamp} :
    (onlySpent limit now).refuses other now = true ↔
      (counter other now).1 = (counter limit now).1 ∧ other.allowance.get ≤ limit.allowance.get := by
  unfold World.refuses World.read onlySpent
  by_cases hkey : (counter other now).1 = (counter limit now).1
  · simp [hkey]
  · simp [hkey, other.allowance.nonzero]

/-- What displaces a limit loosens it when that limit is spent and nothing else is. -/
theorem not_neverLoosens_of_displaces (h : Displaces (before ++ after) further asking) :
    ¬NeverLoosens before after further asking := by
  intro hnever
  obtain ⟨hholds, ⟨held, hmem, hheld, hpair⟩, hwider⟩ := h
  obtain ⟨limit, hdecides, hsame⟩ := exists_decides hmem hheld
  have hspent := hnever ⟨.epoch, none⟩ (onlySpent limit .epoch) .asPut .asPut
    ((admitRequest_isSpent_iff _ _).mpr
      ⟨rfl, limit, hdecides, refuses_onlySpent.mpr ⟨rfl, Nat.le_refl _⟩⟩)
  obtain ⟨-, other, hother, hrefuses⟩ := (admitRequest_isSpent_iff _ _).mp hspent
  -- what refuses counts where the spent limit does, so the further limit has taken its place
  obtain ⟨hscope, hcounted, hperiod⟩ := counterKey_inj (refuses_onlySpent.mp hrefuses).1
  have hlt := hwider limit hdecides.mem hdecides.1 (hsame.trans hpair)
  have hle := hother.narrowest (by simp) hholds
    ((hsame.trans hpair).symm.trans (Prod.ext hcounted.symm hperiod.symm))
  unfold Limit.narrowness at hlt hle
  rw [hscope] at hle
  exact absurd hlt (Nat.not_lt.mpr hle)

end Further

/-- **One more limit on a new scope never loosens what is enforced for a request unless it displaces a
wider one there.** -/
theorem neverLoosens_iff (before after : List Limit) (further : Limit) (asking : Asking)
    (hnew : ∀ limit ∈ before ++ after, limit.scope = further.scope → limit.pair ≠ further.pair) :
    NeverLoosens before after further asking ↔ ¬Displaces (before ++ after) further asking :=
  ⟨fun hnever hdisplaces => not_neverLoosens_of_displaces hdisplaces hnever,
    neverLoosens_of_not_displaces hnew⟩

/-- A limit on another account leaves this one as bound as it was. -/
theorem neverLoosens_elsewhere :
    NeverLoosens [tenantWide .requests ⟨1, by decide⟩] [] (onAccount bob .requests ⟨1000, by decide⟩)
      (.of alice) := by
  refine (neverLoosens_iff _ _ _ _ ?_).mpr ?_
  · decide
  · rintro ⟨hholds, -⟩
    exact absurd hholds (by decide)

/-- **A narrower limit lifts a wider one**: the tenant's one request a minute is spent, and a limit of a
thousand on one account lets that account go on. -/
theorem loosened_for_alice :
    ¬∀ (before after : List Limit) (further : Limit) (asking : Asking),
      (∀ limit ∈ before ++ after, limit.scope = further.scope → limit.pair ≠ further.pair) →
      NeverLoosens before after further asking := by
  intro hall
  have hspent : (Process.exec handle ⟨.epoch, none⟩
      (admitRequest .asPut [tenantWide .requests ⟨1, by decide⟩] (.of alice))
      (onlySpent (tenantWide .requests ⟨1, by decide⟩) .epoch)).2.isSpent = true := by decide +kernel
  have hallowed : (Process.exec handle ⟨.epoch, none⟩
      (admitRequest .asPut
        [tenantWide .requests ⟨1, by decide⟩, onAccount alice .requests ⟨1000, by decide⟩] (.of alice))
      (onlySpent (tenantWide .requests ⟨1, by decide⟩) .epoch)).2 = .allowed := by decide +kernel
  have hstill := hall [tenantWide .requests ⟨1, by decide⟩] []
    (onAccount alice .requests ⟨1000, by decide⟩) (.of alice) (by decide) _ _ _ .asPut hspent
  rw [List.singleton_append, hallowed] at hstill
  cases hstill

end IntelliPrism.Gateway
