import IntelliPrism.Manage.Allows

/-!
# A signature is good once

Requests are verified at once, on a store that may be written to between any two of their calls, with a cache
whose claims are atomic and that keeps what is claimed.

* `unspent_verify` — `RequestVerifier::verify` accepts only right behind a claim it has won;
* `accepted_once` — **of the requests that spend one nonce at most one is accepted**, in whatever order their
  calls fall.
-/

namespace IntelliPrism.Auth

open IntelliPrism.Core IntelliPrism.Lib IntelliPrism.Cache IntelliPrism.Manage

/-- A cache that keeps what is claimed, beside a store that others write to: each call finds it as it stands
then. -/
def spending : Handler (Store × Option Supply) (List CacheKey) Op Op.Res := fun x op claimed =>
  match op with
  | .claim key _ =>
    if x.2.isNone then (claimed, .error .backend)
    else if key ∈ claimed then (claimed, .ok false)
    else (key :: claimed, .ok true)
  | op => (claimed, (handle x.2 op x.1).2)

/-- A request and where it came from, being verified. -/
abbrev Verifying := Task (SignedRequest × IpAddr) Op Op.Res (Except AuthError Identity)

def accepted : Verifying → Bool
  | ⟨_, _, .done outcome⟩ => outcome.isOk
  | _ => false

section Replay

variable {sha256 : Bytes → Bytes} {nonceTtl : Ttl} {id : String}

/-- A claim of the nonce that is won. -/
def Wins (id : String) : (op : Op) → op.Res → Prop
  | .claim key _, answer => CacheKey.new .system id = .ok key ∧ answer = .ok true
  | _, _ => False

/-- A text that accepts nothing before it has won the nonce. -/
def Unspent (id : String) : Action (Except AuthError Identity) → Prop
  | .done outcome => outcome.isOk = false
  | .call op next => ∀ answer, ¬ Wins id op answer → Unspent id (next answer)

theorem unspent_ask {op : Op} {next : op.Res → Action (Except AuthError Identity)}
    (h : ∀ answer, ¬ Wins id op answer → Unspent id (next answer)) : Unspent id (ask op >>= next) := h

theorem unspent_verify (request : SignedRequest) (origin : IpAddr) :
    Unspent (nonceId request) (verify sha256 nonceTtl request origin) := by
  refine unspent_ask fun user _ => ?_
  rcases user with _ | (_ | user)
  · rfl
  · rfl
  · dsimp only
    split
    · rfl
    · refine unspent_ask fun tenant _ => unspent_ask fun membership _ => ?_
      split
      · rfl
      · rfl
      · rfl
      · rfl
      · split
        · rw [spend]
          cases hkey : CacheKey.new .system (nonceId request) with
          | error error => rfl
          | ok key =>
            refine unspent_ask fun claimed hlost => ?_
            rcases claimed with _ | (_ | _)
            · rfl
            · rfl
            · exact absurd ⟨hkey, rfl⟩ hlost
        · rfl

def Spent (id : String) (claimed : List CacheKey) : Prop :=
  ∃ key ∈ claimed, CacheKey.new .system id = .ok key

/-- What is claimed stays claimed; a nonce that is won was not, and is from then on. -/
theorem spent_spending (x : Store × Option Supply) (op : Op) (claimed : List CacheKey) :
    (Spent id claimed → Spent id (spending x op claimed).1) ∧
      (Wins id op (spending x op claimed).2 → ¬ Spent id claimed ∧ Spent id (spending x op claimed).1) := by
  cases op with
  | claim key ttl =>
    by_cases hsupply : x.2.isNone
    · simp [spending, hsupply, Wins]
    · by_cases hmem : key ∈ claimed
      · simp [spending, hsupply, hmem, Wins]
      · rw [spending, if_neg hsupply, if_neg hmem]
        refine ⟨fun ⟨other, hother, hkey⟩ => ⟨other, List.mem_cons_of_mem _ hother, hkey⟩, fun hwins => ?_⟩
        refine ⟨fun ⟨other, hother, hkey⟩ => hmem ?_, key, List.mem_cons_self .., hwins.1⟩
        cases hkey.symm.trans hwins.1
        exact hother
  | _ => exact ⟨fun h => h, fun h => h.elim⟩

open Classical in
/-- Whether a request has won the nonce. -/
noncomputable def won (id : String) (task : Verifying) : ℕ :=
  if nonceId task.request.1 = id ∧ ¬ Unspent id task.rest then 1 else 0

theorem won_le_one (id : String) (task : Verifying) : won id task ≤ 1 := by
  rw [won]
  split <;> omega

/-- A call that does not win the nonce leaves a request as far from it as it was. -/
theorem won_le {task task' : Verifying} (hsame : task'.request = task.request)
    (h : Unspent id task.rest → Unspent id task'.rest) : won id task' ≤ won id task := by
  rw [won, won, hsame]
  split
  · rename_i hwon
    rw [if_pos ⟨hwon.1, fun hunspent => hwon.2 (h hunspent)⟩]
  · exact Nat.zero_le _

theorem accepted_le_won (id : String) (tasks : List Verifying) :
    tasks.countP (fun task => decide (nonceId task.request.1 = id) && accepted task)
      ≤ Pool.tally (won id) tasks := by
  induction tasks with
  | nil => exact Nat.zero_le _
  | cons task tasks ih =>
    have htally : Pool.tally (won id) (task :: tasks) = won id task + Pool.tally (won id) tasks := List.sum_cons
    rw [List.countP_cons, htally]
    split
    · rename_i htask
      obtain ⟨hid, haccepted⟩ := Bool.and_eq_true_iff.mp htask
      have hwon : won id task = 1 := by
        obtain ⟨request, begun, rest⟩ := task
        refine if_pos ⟨of_decide_eq_true hid, fun hunspent => ?_⟩
        cases rest with
        | call op next => cases haccepted
        | done outcome => exact Bool.false_ne_true (hunspent.symm.trans haccepted)
      omega
    · omega

/-- **Of the requests that spend one nonce at most one is accepted**, whatever else is asked beside them, in
whatever order their calls fall, whatever happens to the store in between and whatever fails, for as long as
the cache keeps what is claimed. -/
theorem accepted_once (sha256 : Bytes → Bytes) (nonceTtl : Ttl) {claimed : List CacheKey}
    {requests : List (SignedRequest × IpAddr)} {q : Pool (List CacheKey) Verifying}
    (h : Pool.Reach (Task.step spending) Pool.anyStep
      ⟨claimed, requests.map (.of fun asked => verify sha256 nonceTtl asked.1 asked.2)⟩ q) (id : String) :
    q.threads.countP (fun task => decide (nonceId task.request.1 = id) && accepted task) ≤ 1 := by
  refine (accepted_le_won id q.threads).trans ?_
  -- at most one has won the nonce, and where one has the nonce is claimed
  refine (h.tally_invariant (T := fun _ => True) (f := won id)
    (J := fun claimed n => n ≤ 1 ∧ (0 < n → Spent id claimed)) (fun _ _ => trivial) ?_ ?_).2.1
  · have hnone : Pool.tally (won id) (requests.map
        (.of fun asked => verify sha256 nonceTtl asked.1 asked.2)) = 0 := by
      refine List.sum_eq_zero fun n hn => ?_
      obtain ⟨task, htask, rfl⟩ := List.mem_map.mp hn
      obtain ⟨asked, -, rfl⟩ := List.mem_map.mp htask
      refine if_neg fun hwon => hwon.2 ?_
      rw [← hwon.1]
      exact unspent_verify asked.1 asked.2
    rw [hnone]
    exact ⟨Nat.zero_le _, fun hpos => absurd hpos (Nat.lt_irrefl 0)⟩
  · intro claimed tasks task x claimed' task' rest _ _ _ hstep hJ
    obtain ⟨op, next, hrest, rfl, rfl⟩ := Task.step_eq_some.mp hstep
    obtain ⟨hkept, hwon⟩ := @spent_spending id x op claimed
    refine ⟨trivial, ?_⟩
    by_cases hwins : Wins id op (spending x op claimed).2
    · have hnone : rest + won id task = 0 := by
        by_contra hpos
        exact (hwon hwins).1 (hJ.2 (Nat.pos_of_ne_zero hpos))
      have hone := won_le_one id ⟨task.request, true, next (spending x op claimed).2⟩
      exact ⟨by omega, fun _ => (hwon hwins).2⟩
    · have hle : won id ⟨task.request, true, next (spending x op claimed).2⟩ ≤ won id task := by
        refine won_le rfl fun hunspent => ?_
        rw [hrest] at hunspent
        exact hunspent _ hwins
      exact ⟨by omega, fun hpos => hkept (hJ.2 (by omega))⟩

end Replay

def sentTwice : Pool (List CacheKey) Verifying :=
  ⟨[], [(aliceSigned, .v4 10 0 0 1), (aliceSigned, .v4 10 0 0 2)].map
    (.of fun asked => verify (fun bytes => bytes) ⟨1, Nat.one_ne_zero⟩ asked.1 asked.2)⟩

/-- The two make their four calls in turn, and one of them is accepted. -/
theorem accepted_once_of_two :
    ∃ q, Pool.Reach (Task.step spending) Pool.anyStep sentTwice q ∧ q.threads.countP accepted = 1 ∧
      q.threads.countP (fun task => decide (nonceId task.request.1 = nonceId aliceSigned) &&
        accepted task) ≤ 1 := by
  have hrun : (Pool.run (Task.step spending) Pool.anyStep sentTwice
      ([0, 1, 0, 1, 0, 1, 0, 1].map fun i => (i, acmeStore, carriedOut))).any
      (fun q => q.threads.countP accepted == 1) = true := by
    decide +kernel
  obtain ⟨q, hq, htest⟩ := Pool.exists_reach_of_run hrun
  exact ⟨q, hq, beq_iff_eq.mp htest, accepted_once _ _ hq _⟩

end IntelliPrism.Auth
