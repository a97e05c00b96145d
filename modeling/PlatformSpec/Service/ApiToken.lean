import PlatformSpec.Base.Interleaving

/-!
# Authentication by a cached API token

Models `services/api_token_service.py`, the token validation of
`controllers/service_api/wraps.py` and `BaseApiKeyResource.delete` of
`controllers/console/apikey.py`, for one token and scope: its cache entry, its query lock and
its database row. Usage records and the tenant index of the cache are left out.
-/

namespace PlatformSpec.Service.ApiToken

open Base

/-- `CachedApiToken`, and the columns of `ApiToken` it copies. -/
structure CachedApiToken where
  id : String
  appId : Option String
  tenantId : Option String
  type : String
  token : String
  deriving DecidableEq

/-- The cache entry (absent, `null`, or a token), the holder of the query lock and the
committed row. -/
structure Store (ι : Type) where
  cache : Option (Option CachedApiToken)
  lock : Option ι
  row : Option CachedApiToken

/-- Where `query_token_from_db` is called: under the lock, without it after a timeout, or in
the handler of an exception. -/
inductive Stage where
  | locked
  | unlocked
  | handler
  deriving DecidableEq

/-- How the body under the lock ends. -/
inductive Outcome where
  | returns (token : CachedApiToken)
  | raisesUnauthorized
  | raises
  deriving DecidableEq

/-- Where an authentication or a deletion is. -/
inductive Place where
  | called
  | locking
  | locked
  | querying (stage : Stage)
  | caching (stage : Stage) (apiToken : Option CachedApiToken)
  | releasing (outcome : Outcome)
  | authenticated (token : CachedApiToken)
  | unauthorized
  | failed
  | deleting
  | found
  | invalidated
  | rowDeleted
  | deleted
  | notFound
  deriving DecidableEq

/-- The atomic steps. Redis may be unavailable, and an entry or a lock may expire at any
moment. -/
inductive Operation where
  | cacheGet (available : Bool)
  | acquire
  | acquireTimesOut
  | acquireRaises
  | query
  | queryRaises
  | cacheSet (available : Bool)
  | release
  | find
  | cacheDelete (available : Bool)
  | dbDelete
  | commit
  | entryExpires
  | lockExpires
  deriving DecidableEq

/-- `query_token_from_db` returns or raises `Unauthorized`. -/
def afterQuery : Stage → Option CachedApiToken → Place
  | .locked, some token => .releasing (.returns token)
  | .locked, none => .releasing .raisesUnauthorized
  | _, some token => .authenticated token
  | _, none => .unauthorized

/-- `query_token_from_db` raises something else. -/
def afterQueryRaises : Stage → Place
  | .locked => .releasing .raises
  | .unlocked => .querying .handler
  | .handler => .failed

/-- The lock is released after the body. -/
def afterRelease : Outcome → Place
  | .returns token => .authenticated token
  | .raisesUnauthorized => .unauthorized
  | .raises => .querying .handler

section Steps

variable {ι : Type} [DecidableEq ι]

/-- One step of process `i`. -/
def operate (i : ι) (s : Store ι) : Place → Operation → Option (Store ι × Place)
  | .called, .cacheGet available =>
    match available, s.cache with
    | true, some (some token) => some (s, .authenticated token)
    | _, _ => some (s, .locking)
  | .locking, .acquire => if s.lock.isNone then some ({ s with lock := some i }, .locked) else none
  | .locking, .acquireTimesOut => some (s, .querying .unlocked)
  | .locking, .acquireRaises => some (s, .querying .handler)
  | .locked, .cacheGet available =>
    match available, s.cache with
    | true, some (some token) => some (s, .releasing (.returns token))
    | _, _ => some (s, .querying .locked)
  | .querying stage, .query => some (s, .caching stage s.row)
  | .querying stage, .queryRaises => some (s, afterQueryRaises stage)
  | .caching stage apiToken, .cacheSet available =>
    some (if available then { s with cache := some apiToken } else s, afterQuery stage apiToken)
  | .releasing outcome, .release =>
    if s.lock = some i then some ({ s with lock := none }, afterRelease outcome)
    else some (s, .querying .handler)
  | .deleting, .find => some (s, if s.row.isSome then .found else .notFound)
  | .found, .cacheDelete available =>
    some (if available then { s with cache := none } else s, .invalidated)
  | .invalidated, .dbDelete => some (s, .rowDeleted)
  | .rowDeleted, .commit => some ({ s with row := none }, .deleted)
  | l, .entryExpires => some ({ s with cache := none }, l)
  | l, .lockExpires => some ({ s with lock := none }, l)
  | _, _ => none

/-- Concurrent authentications and deletions. -/
abbrev Requests (ι : Type) := Processes (Store ι) ι Place

/-- One step of one process. -/
def step : Requests ι → ι × Operation → Option (Requests ι) := Processes.step operate

/-- A token with an empty cache, and processes none of which has begun. -/
def start (row : Option CachedApiToken) (deletes : ι → Bool) : Requests ι :=
  ⟨⟨none, none, row⟩, fun i => if deletes i then .deleting else .called⟩

/-- A deletion has passed its cache delete. -/
def Place.Passed (l : Place) : Prop := l = .invalidated ∨ l = .rowDeleted ∨ l = .deleted

/-- The cache holds the token. -/
def Store.Cached (s : Store ι) : Prop := ∃ token, s.cache = some (some token)

/-- The process is about to cache the token. -/
def Place.Caches (l : Place) : Prop := ∃ stage token, l = .caching stage (some token)

/-- A deletion's cache delete leaves no entry, and no authentication that is about to write
one; none reads the row between the cache delete and the commit. -/
def Undisturbed (r : Requests ι) : ι × Operation → Prop
  | (i, .cacheDelete available) => r.place i = .found →
    (available = true ∨ ¬ r.shared.Cached) ∧ ∀ j, ¬ (r.place j).Caches
  | (i, .query) => (∃ stage, r.place i = .querying stage) → r.shared.row ≠ none →
    ∀ j, r.place j ≠ .invalidated ∧ r.place j ≠ .rowDeleted
  | _ => True

private theorem afterQuery_quiet (stage : Stage) (apiToken : Option CachedApiToken) :
    ¬ (afterQuery stage apiToken).Passed ∧ ¬ (afterQuery stage apiToken).Caches := by
  unfold Place.Passed Place.Caches
  cases stage <;> cases apiToken <;> simp [afterQuery]

private theorem afterQueryRaises_quiet (stage : Stage) :
    ¬ (afterQueryRaises stage).Passed ∧ ¬ (afterQueryRaises stage).Caches := by
  unfold Place.Passed Place.Caches
  cases stage <;> simp [afterQueryRaises]

private theorem afterRelease_quiet (outcome : Outcome) :
    ¬ (afterRelease outcome).Passed ∧ ¬ (afterRelease outcome).Caches := by
  unfold Place.Passed Place.Caches
  cases outcome <;> simp [afterRelease]

variable {s s' : Store ι} {l l' : Place} {i : ι}

private theorem operate_cases {a : Operation} (h : operate i s l a = some (s', l')) :
    (s'.row = s.row ∧ (s'.cache = s.cache ∨ s'.cache = none) ∧
      (l' = l ∨ ¬ l'.Passed ∧ ¬ l'.Caches)) ∨
    (∃ stage, l = .querying stage ∧ a = .query ∧ s' = s ∧ l' = .caching stage s.row) ∨
    (∃ stage apiToken, l = .caching stage apiToken ∧ s' = { s with cache := some apiToken } ∧
      l' = afterQuery stage apiToken) ∨
    (∃ available, l = .found ∧ a = .cacheDelete available ∧ l' = .invalidated ∧
      s' = if available then { s with cache := none } else s) ∨
    (l = .invalidated ∧ s' = s ∧ l' = .rowDeleted) ∨
    (l = .rowDeleted ∧ s' = { s with row := none } ∧ l' = .deleted) := by
  unfold operate at h
  split at h
  next available =>
    split at h
    next =>
      cases h
      exact .inl ⟨rfl, .inl rfl, .inr (by simp [Place.Passed, Place.Caches])⟩
    next =>
      cases h
      exact .inl ⟨rfl, .inl rfl, .inr (by simp [Place.Passed, Place.Caches])⟩
  next =>
    split at h
    next =>
      cases h
      exact .inl ⟨rfl, .inl rfl, .inr (by simp [Place.Passed, Place.Caches])⟩
    next => cases h
  next =>
    cases h
    exact .inl ⟨rfl, .inl rfl, .inr (by simp [Place.Passed, Place.Caches])⟩
  next =>
    cases h
    exact .inl ⟨rfl, .inl rfl, .inr (by simp [Place.Passed, Place.Caches])⟩
  next available =>
    split at h
    next =>
      cases h
      exact .inl ⟨rfl, .inl rfl, .inr (by simp [Place.Passed, Place.Caches])⟩
    next =>
      cases h
      exact .inl ⟨rfl, .inl rfl, .inr (by simp [Place.Passed, Place.Caches])⟩
  next stage =>
    cases h
    exact .inr (.inl ⟨stage, rfl, rfl, rfl, rfl⟩)
  next stage =>
    cases h
    exact .inl ⟨rfl, .inl rfl, .inr (afterQueryRaises_quiet stage)⟩
  next stage apiToken available =>
    cases h
    cases available with
    | true => exact .inr (.inr (.inl ⟨stage, apiToken, rfl, rfl, rfl⟩))
    | false => exact .inl ⟨rfl, .inl rfl, .inr (afterQuery_quiet stage apiToken)⟩
  next outcome =>
    split at h
    next =>
      cases h
      exact .inl ⟨rfl, .inl rfl, .inr (afterRelease_quiet outcome)⟩
    next =>
      cases h
      exact .inl ⟨rfl, .inl rfl, .inr (by simp [Place.Passed, Place.Caches])⟩
  next =>
    cases h
    refine .inl ⟨rfl, .inl rfl, .inr ?_⟩
    split
    next => simp [Place.Passed, Place.Caches]
    next => simp [Place.Passed, Place.Caches]
  next available =>
    cases h
    exact .inr (.inr (.inr (.inl ⟨available, rfl, rfl, rfl, rfl⟩)))
  next =>
    cases h
    exact .inr (.inr (.inr (.inr (.inl ⟨rfl, rfl, rfl⟩))))
  next =>
    cases h
    exact .inr (.inr (.inr (.inr (.inr ⟨rfl, rfl, rfl⟩))))
  next =>
    cases h
    exact .inl ⟨rfl, .inr rfl, .inl rfl⟩
  next =>
    cases h
    exact .inl ⟨rfl, .inl rfl, .inl rfl⟩
  next => cases h

/-- Once a deletion has passed its cache delete the token is neither cached nor about to be,
and once it has returned the row is gone. -/
private structure Invalidated (r : Requests ι) : Prop where
  cache : ∀ i, (r.place i).Passed → ¬ r.shared.Cached ∧ ∀ j, ¬ (r.place j).Caches
  row : ∀ i, r.place i = .deleted → r.shared.row = none

omit [DecidableEq ι] in
private theorem invalidated_start (row : Option CachedApiToken) (deletes : ι → Bool) :
    Invalidated (start row deletes) := by
  have hplace : ∀ i, ¬ ((start row deletes).place i).Passed := by
    intro i hi
    simp only [start] at hi
    split at hi
    next => simp [Place.Passed] at hi
    next => simp [Place.Passed] at hi
  exact ⟨fun i hi => absurd hi (hplace i), fun i hi => absurd (.inr (.inr hi)) (hplace i)⟩

variable {r r' : Requests ι}

omit [DecidableEq ι] in
private theorem invalidated_of_none (h : ∀ i, ¬ (r.place i).Passed) :
    Invalidated r :=
  ⟨fun i hi => absurd hi (h i), fun i hi => absurd (.inr (.inr hi)) (h i)⟩

private theorem Invalidated.quiet (h : Invalidated r)
    (hrow : s.row = r.shared.row) (hcache : s.Cached → r.shared.Cached)
    (hl : l = r.place i ∨ ¬ l.Passed ∧ ¬ l.Caches) :
    Invalidated ⟨s, Function.update r.place i l⟩ := by
  have hpassed : ∀ j, (Function.update r.place i l j).Passed → (r.place j).Passed := by
    intro j hj
    rcases Processes.of_update hj with ⟨rfl, hl'⟩ | ⟨-, hj⟩
    · rcases hl with rfl | ⟨hnot, -⟩
      · exact hl'
      · exact absurd hl' hnot
    · exact hj
  constructor
  · intro j hj
    obtain ⟨hnot, hnone⟩ := h.cache j (hpassed j hj)
    refine ⟨fun hs => hnot (hcache hs), fun k hk => ?_⟩
    rcases Processes.of_update hk with ⟨rfl, hl'⟩ | ⟨-, hk⟩
    · rcases hl with rfl | ⟨-, hcaches⟩
      · exact hnone k hl'
      · exact hcaches hl'
    · exact hnone k hk
  · intro j hj
    show s.row = none
    rw [hrow]
    rcases Processes.of_update (P := (· = Place.deleted)) hj with ⟨rfl, hl'⟩ | ⟨-, hj⟩
    · rcases hl with rfl | ⟨hnot, -⟩
      · exact h.row j hl'
      · exact absurd (.inr (.inr hl')) hnot
    · exact h.row j hj

private theorem Invalidated.goOn (h : Invalidated r)
    (hpassed : (r.place i).Passed) (hcache : s.cache = r.shared.cache)
    (hrow : s.row = none ∨ s.row = r.shared.row ∧ l ≠ .deleted) (hl : ¬ l.Caches) :
    Invalidated ⟨s, Function.update r.place i l⟩ := by
  obtain ⟨hnot, hnone⟩ := h.cache i hpassed
  constructor
  · intro j _
    refine ⟨?_, fun k hk => ?_⟩
    · rintro ⟨token, ht⟩
      exact hnot ⟨token, hcache.symm.trans ht⟩
    · rcases Processes.of_update hk with ⟨-, hl'⟩ | ⟨-, hk⟩
      · exact hl hl'
      · exact hnone k hk
  · intro j hj
    rcases hrow with hrow | ⟨hrow, hne⟩
    · exact hrow
    · rcases Processes.of_update (P := (· = Place.deleted)) hj with ⟨-, hl'⟩ | ⟨-, hj⟩
      · exact absurd hl' hne
      · exact hrow.trans (h.row j hj)

variable {a : ι × Operation}

private theorem Invalidated.step (h : Invalidated r)
    (ha : Undisturbed r a) (hstep : ApiToken.step r a = some r') : Invalidated r' := by
  obtain ⟨i, a⟩ := a
  obtain ⟨s, l, hop, rfl⟩ := Processes.step_eq_some.mp hstep
  rcases operate_cases hop with ⟨hrow, hcache, hl⟩ | ⟨stage, hplace, rfl, rfl, rfl⟩ |
    ⟨stage, apiToken, hplace, rfl, rfl⟩ | ⟨available, hplace, rfl, rfl, rfl⟩ |
    ⟨hplace, rfl, rfl⟩ | ⟨hplace, rfl, rfl⟩
  · refine h.quiet hrow ?_ hl
    rintro ⟨token, ht⟩
    rcases hcache with hc | hc
    · exact ⟨token, hc.symm.trans ht⟩
    · rw [hc] at ht
      cases ht
  · cases hr : r.shared.row with
    | none => exact h.quiet rfl id (.inr (by simp [Place.Passed, Place.Caches]))
    | some token =>
      have hopen := ha ⟨stage, hplace⟩ (by simp [hr])
      refine invalidated_of_none fun j hj => ?_
      rcases Processes.of_update hj with ⟨-, hl⟩ | ⟨-, hj | hj | hj⟩
      · simp [Place.Passed] at hl
      · exact (hopen j).1 hj
      · exact (hopen j).2 hj
      · rw [h.row j hj] at hr
        cases hr
  · obtain ⟨hpassed, hcaches⟩ := afterQuery_quiet stage apiToken
    cases apiToken with
    | none =>
      refine h.quiet rfl ?_ (.inr ⟨hpassed, hcaches⟩)
      rintro ⟨token, ht⟩
      cases ht
    | some token =>
      refine invalidated_of_none fun j hj => ?_
      rcases Processes.of_update hj with ⟨-, hl⟩ | ⟨-, hj⟩
      · exact hpassed hl
      · exact (h.cache j hj).2 i ⟨stage, token, hplace⟩
  · obtain ⟨havailable, hnone⟩ := ha hplace
    constructor
    · intro j _
      refine ⟨?_, fun k hk => ?_⟩
      · rintro ⟨token, ht⟩
        cases available with
        | true => cases ht
        | false => exact (havailable.resolve_left (by simp)) ⟨token, ht⟩
      · rcases Processes.of_update hk with ⟨-, hl⟩ | ⟨-, hk⟩
        · simp [Place.Caches] at hl
        · exact hnone k hk
    · intro j hj
      rcases Processes.of_update (P := (· = Place.deleted)) hj with ⟨-, hl⟩ | ⟨-, hold⟩
      · cases hl
      · cases available with
        | true => exact h.row j hold
        | false => exact h.row j hold
  · exact h.goOn (.inl hplace) rfl (.inr ⟨rfl, by simp⟩) (by simp [Place.Caches])
  · exact h.goOn (.inr (.inl hplace)) rfl (.inl rfl) (by simp [Place.Caches])

/-- An authentication that has the token in hand, or has succeeded with it. -/
private def Place.Holds (l : Place) : Prop :=
  l.Caches ∨ (∃ token, l = .releasing (.returns token)) ∨ ∃ token, l = .authenticated token

private theorem holds_of_operate {a : Operation}
    (h : operate i s l a = some (s', l')) (hl' : l'.Holds) :
    l.Holds ∨ s.Cached ∨ s.row ≠ none := by
  unfold operate at h
  split at h
  next available =>
    split at h
    next token hcache =>
      exact .inr (.inl ⟨token, hcache⟩)
    next =>
      cases h
      simp [Place.Holds, Place.Caches] at hl'
  next =>
    split at h
    next =>
      cases h
      simp [Place.Holds, Place.Caches] at hl'
    next => cases h
  next =>
    cases h
    simp [Place.Holds, Place.Caches] at hl'
  next =>
    cases h
    simp [Place.Holds, Place.Caches] at hl'
  next available =>
    split at h
    next token hcache =>
      exact .inr (.inl ⟨token, hcache⟩)
    next =>
      cases h
      simp [Place.Holds, Place.Caches] at hl'
  next stage =>
    cases h
    cases hr : s.row with
    | none =>
      rw [hr] at hl'
      simp [Place.Holds, Place.Caches] at hl'
    | some token => exact .inr (.inr (by simp))
  next stage =>
    cases h
    cases stage <;> simp [Place.Holds, Place.Caches, afterQueryRaises] at hl'
  next stage apiToken available =>
    cases h
    cases apiToken with
    | none => cases stage <;> simp [Place.Holds, Place.Caches, afterQuery] at hl'
    | some token => exact .inl (.inl ⟨stage, token, rfl⟩)
  next outcome =>
    split at h
    next =>
      cases h
      cases outcome with
      | returns token => exact .inl (.inr (.inl ⟨token, rfl⟩))
      | raisesUnauthorized => simp [Place.Holds, Place.Caches, afterRelease] at hl'
      | raises => simp [Place.Holds, Place.Caches, afterRelease] at hl'
    next =>
      cases h
      simp [Place.Holds, Place.Caches] at hl'
  next =>
    cases h
    split at hl' <;> simp [Place.Holds, Place.Caches] at hl'
  next =>
    cases h
    simp [Place.Holds, Place.Caches] at hl'
  next =>
    cases h
    simp [Place.Holds, Place.Caches] at hl'
  next =>
    cases h
    simp [Place.Holds, Place.Caches] at hl'
  next =>
    cases h
    exact .inl hl'
  next =>
    cases h
    exact .inl hl'
  next => cases h

private theorem deleted_step
    (hi : r.place i = .deleted) (hstep : step r a = some r') : r'.place i = .deleted := by
  obtain ⟨j, a⟩ := a
  obtain ⟨s, l, hop, rfl⟩ := Processes.step_eq_some.mp hstep
  by_cases hij : i = j
  · subst hij
    rw [hi] at hop
    rw [Processes.place_update_self]
    cases a with
    | entryExpires =>
      cases hop
      rfl
    | lockExpires =>
      cases hop
      rfl
    | _ => cases hop
  · rw [Processes.place_update_of_ne _ _ hij]
    exact hi

/-- In a run of concurrent authentications and deletions of a token whose deletions are
undisturbed: once a deletion has returned the cache does not hold the token at any later
moment, and no authentication that begins after it succeeds. -/
theorem deleted_stops_working {row : Option CachedApiToken} {deletes : ι → Bool}
    {as bs : List (ι × Operation)} {m r : Requests ι} {i : ι}
    (hpre : run step (start row deletes) as = some m) (hi : m.place i = .deleted)
    (hpost : run step m bs = some r)
    (hall : ∀ pre a post k, as ++ bs = pre ++ a :: post →
      run step (start row deletes) pre = some k → Undisturbed k a) :
    (∀ token, r.shared.cache ≠ some (some token)) ∧
      ∀ j, m.place j = .called → ∀ token, r.place j ≠ .authenticated token := by
  have hinv : Invalidated m := by
    refine run_induction Undisturbed (P := Invalidated) (fun _ _ _ hk ha hst => hk.step ha hst)
      (invalidated_start row deletes) ?_ hpre
    intro pre a post k he hk
    exact hall pre a (post ++ bs) k (by rw [he, List.append_assoc, List.cons_append]) hk
  have hlate : ∀ j, ¬ (m.place j).Holds →
      Invalidated r ∧ r.place i = .deleted ∧ ¬ (r.place j).Holds := by
    intro j hj
    refine run_induction Undisturbed
      (P := fun k => Invalidated k ∧ k.place i = .deleted ∧ ¬ (k.place j).Holds) ?_
      ⟨hinv, hi, hj⟩ ?_ hpost
    · rintro k ⟨j', a⟩ k' ⟨hk, hki, hkj⟩ ha hstep
      refine ⟨hk.step ha hstep, deleted_step hki hstep, ?_⟩
      obtain ⟨s, l, hop, rfl⟩ := Processes.step_eq_some.mp hstep
      intro hholds
      rcases Processes.of_update hholds with ⟨rfl, hl⟩ | ⟨-, hold⟩
      · rcases holds_of_operate hop hl with hl | hcached | hrow
        · exact hkj hl
        · exact (hk.cache i (.inr (.inr hki))).1 hcached
        · exact hrow (hk.row i hki)
      · exact hkj hold
    · intro pre a post k he hk
      refine hall (as ++ pre) a post k (by rw [he, List.append_assoc]) ?_
      exact run_append_eq_some.mpr ⟨m, hpre, hk⟩
  constructor
  · intro token ht
    obtain ⟨hr, hri, -⟩ := hlate i (by simp [hi, Place.Holds, Place.Caches])
    exact (hr.cache i (.inr (.inr hri))).1 ⟨token, ht⟩
  · intro j hj token ht
    obtain ⟨-, -, hnot⟩ := hlate j (by simp [hj, Place.Holds, Place.Caches])
    exact hnot (.inr (.inr ⟨token, ht⟩))

end Steps

/-- A token of an app. -/
def appToken : CachedApiToken := ⟨"key", some "app", some "tenant", "app", "app-secret"⟩

/-- The first of three processes deletes; the others authenticate. -/
private def keyRequests : Requests (Fin 3) := start (some appToken) (· = 0)

private def undisturbedPre : List (Fin 3 × Operation) :=
  [(1, .cacheGet true), (1, .acquire), (1, .cacheGet true), (1, .query), (1, .cacheSet true),
    (1, .release), (0, .find), (0, .cacheDelete true), (0, .dbDelete), (0, .commit)]

private def undisturbedPost : List (Fin 3 × Operation) :=
  [(2, .cacheGet true), (2, .acquireTimesOut), (2, .query), (2, .cacheSet true)]

theorem deleted_stops_working_undisturbed : ∃ m r : Requests (Fin 3),
    run step keyRequests undisturbedPre = some m ∧ m.place 0 = .deleted ∧
    m.place 1 = .authenticated appToken ∧ run step m undisturbedPost = some r ∧
    (∀ token, r.shared.cache ≠ some (some token)) ∧
    ∀ token, r.place 2 ≠ .authenticated token := by
  obtain ⟨m, hm, hdeleted, hserved, hcalled, hnext⟩ : ∃ m,
      run step keyRequests undisturbedPre = some m ∧ m.place 0 = .deleted ∧
        m.place 1 = .authenticated appToken ∧ m.place 2 = .called ∧
        (run step m undisturbedPost).isSome := by
    decide +kernel
  have htest : testRun step (fun r a => match a.2 with
      | .cacheDelete available => available && decide (∀ j, r.place j = .found ∨
          r.place j = .authenticated appToken ∨ r.place j = .called)
      | .query => r.shared.row.isNone || decide (∀ j, r.place j ≠ .invalidated ∧
          r.place j ≠ .rowDeleted)
      | _ => true) keyRequests (undisturbedPre ++ undisturbedPost) = true := by
    decide +kernel
  obtain ⟨r, hr⟩ := Option.isSome_iff_exists.mp hnext
  have hstops := deleted_stops_working hm hdeleted hr fun pre a post k he hk => ?_
  · exact ⟨m, r, hm, hdeleted, hserved, hr, hstops.1, hstops.2 2 hcalled⟩
  · have ht := allowed_of_testRun htest pre a post k he hk
    obtain ⟨i, a⟩ := a
    cases a with
    | cacheDelete available =>
      obtain ⟨havailable, hplaces⟩ := Bool.and_eq_true_iff.mp ht
      intro _
      refine ⟨.inl havailable, ?_⟩
      rintro j ⟨stage, token, hj⟩
      rcases of_decide_eq_true hplaces j with h | h | h
      · exact absurd (hj.symm.trans h) (by simp)
      · exact absurd (hj.symm.trans h) (by simp)
      · exact absurd (hj.symm.trans h) (by simp)
    | query =>
      intro _ hrow
      rcases Bool.or_eq_true_iff.mp ht with h | h
      · exact absurd (Option.isNone_iff_eq_none.mp h) hrow
      · exact of_decide_eq_true h
    | _ => trivial

/-- An authentication that reads the row before the commit and caches it after the cache
delete lets another one succeed after the deletion has returned. -/
theorem deleted_still_works : ∃ m r : Requests (Fin 3),
    run step keyRequests
      [(1, .cacheGet true), (1, .acquire), (1, .cacheGet true), (1, .query), (0, .find),
        (0, .cacheDelete true), (0, .dbDelete), (0, .commit)] = some m ∧
    m.place 0 = .deleted ∧ m.place 2 = .called ∧
    run step m [(1, .cacheSet true), (2, .cacheGet true)] = some r ∧
    r.shared.cache = some (some appToken) ∧ r.place 2 = .authenticated appToken := by
  obtain ⟨m, hm, hdeleted, hcalled, r, hr, hcache⟩ : ∃ m, run step keyRequests
      [(1, .cacheGet true), (1, .acquire), (1, .cacheGet true), (1, .query), (0, .find),
        (0, .cacheDelete true), (0, .dbDelete), (0, .commit)] = some m ∧
      m.place 0 = .deleted ∧ m.place 2 = .called ∧
      ∃ r, run step m [(1, .cacheSet true), (2, .cacheGet true)] = some r ∧
        r.shared.cache = some (some appToken) ∧ r.place 2 = .authenticated appToken := by
    decide +kernel
  exact ⟨m, r, hm, hdeleted, hcalled, hr, hcache⟩

end PlatformSpec.Service.ApiToken
