import PlatformSpec.Base.Interleaving

/-!
# Tokens of an account

Models `TokenManager` of `libs/helper.py`: the token entries and the current-token entries in Redis,
with the commands of concurrent calls in any order. The id of an account and a token are UUIDs, and
so never empty.
-/

namespace PlatformSpec.Service.TokenManager

open Base

/-- `Account`, as far as a token tells of it. -/
structure Account where
  id : String
  email : String
  deriving DecidableEq

/-- The arguments of `generate_token`. -/
structure Call where
  tokenType : String
  account : Option Account
  email : Option String
  additionalData : List (String × String)
  deriving DecidableEq

/-- `token_data`, with what was added to it apart. -/
structure TokenData where
  accountId : Option String
  email : Option String
  tokenType : String
  additionalData : List (String × String)
  deriving DecidableEq

/-- What `SETEX` leaves at a key. -/
structure Entry (α : Type) where
  value : α
  expires : Nat
  deriving DecidableEq

/-- The keys `{token_type}:token:{token}` and `{token_type}:account:{account_id}`. -/
structure Redis where
  clock : Nat
  tokens : String × String → Option (Entry TokenData)
  accounts : String × String → Option (Entry String)

/-- `GET`: an entry that has expired is gone. -/
def Redis.get {α : Type} (redis : Redis) (entry : Option (Entry α)) : Option α :=
  entry.bind fun e => if redis.clock < e.expires then some e.value else none

/-- `get_token_data`. -/
def getTokenData (redis : Redis) (token tokenType : String) : Option TokenData :=
  redis.get (redis.tokens (tokenType, token))

/-- `revoke_token`. -/
def revokeToken (redis : Redis) (token tokenType : String) : Redis :=
  { redis with tokens := Function.update redis.tokens (tokenType, token) none }

/-- `_get_current_token_for_account`. -/
def getCurrentTokenForAccount (redis : Redis) (accountId tokenType : String) : Option String :=
  redis.get (redis.accounts (tokenType, accountId))

/-- `_set_current_token_for_account`. -/
def setCurrentTokenForAccount (redis : Redis) (accountId token tokenType : String)
    (expiryMinutes : Nat) : Redis :=
  { redis with
    accounts := Function.update redis.accounts (tokenType, accountId)
      (some ⟨token, redis.clock + expiryMinutes * 60⟩) }

/-- The data that a call stores under its token. -/
def Call.tokenData (call : Call) : TokenData where
  accountId := call.account.map Account.id
  email := (call.account.map Account.email).or call.email
  tokenType := call.tokenType
  additionalData := call.additionalData

/-- The `SETEX` of the token entry. -/
def storeToken (redis : Redis) (call : Call) (token : String) (expiryMinutes : Nat) : Redis :=
  { redis with
    tokens := Function.update redis.tokens (call.tokenType, token)
      (some ⟨call.tokenData, redis.clock + expiryMinutes * 60⟩) }

/-- Where a process is: between calls, or before a command of `generate_token`. -/
inductive Place where
  | idle
  | revoking (call : Call) (oldToken : String)
  | storing (call : Call)
  | recording (call : Call) (token : String) (expiryMinutes : Nat)
  deriving DecidableEq

/-- A command of a call, or some time that passes. -/
inductive Command where
  | generateToken (call : Call)
  | revokeOld
  | storeToken (token : String)
  | recordToken
  | revokeToken (token tokenType : String)
  | getTokenData (token tokenType : String)
  | wait (seconds : Nat)
  deriving DecidableEq

/-- One command, with the minutes that the configuration sets for each type. -/
def operate {ι : Type} (configured : String → Option Nat) (_ : ι) (redis : Redis) :
    Place → Command → Option (Redis × Place)
  | .idle, .generateToken call =>
    match call.account with
    | some account =>
      match getCurrentTokenForAccount redis account.id call.tokenType with
      | some oldToken => some (redis, .revoking call oldToken)
      | none => some (redis, .storing call)
    -- without an address either, it raises
    | none => some (redis, if call.email.isNone then .idle else .storing call)
  | .revoking call oldToken, .revokeOld =>
    some (revokeToken redis oldToken call.tokenType, .storing call)
  | .storing call, .storeToken token =>
    match configured call.tokenType with
    | none => some (redis, .idle)
    | some expiryMinutes =>
      some (storeToken redis call token expiryMinutes,
        .recording call token expiryMinutes)
  | .recording call token expiryMinutes, .recordToken =>
    match call.account with
    | some account =>
      some (setCurrentTokenForAccount redis account.id token call.tokenType expiryMinutes, .idle)
    | none => some (redis, .idle)
  | .idle, .revokeToken token tokenType => some (revokeToken redis token tokenType, .idle)
  | .idle, .getTokenData _ _ => some (redis, .idle)
  | place, .wait seconds => some ({ redis with clock := redis.clock + seconds }, place)
  | _, _ => none

section

variable {ι : Type} [DecidableEq ι] (configured : String → Option Nat)

/-- One command of one process. -/
def step : Processes Redis ι Place → ι × Command → Option (Processes Redis ι Place) :=
  Processes.step (operate configured)

end

/-- Processes none of which has begun, over an empty Redis. -/
def start (ι : Type) (clock : Nat) : Processes Redis ι Place :=
  ⟨⟨clock, fun _ => none, fun _ => none⟩, fun _ => .idle⟩

/-! ## One token at a time -/

/-- The type and the account that a call is for. -/
def Call.key (call : Call) : Option (String × String) :=
  call.account.map fun account => (call.tokenType, account.id)

/-- The type and the account that a process is generating a token for. -/
def Place.key : Place → Option (String × String)
  | .idle => none
  | .revoking call _ => call.key
  | .storing call => call.key
  | .recording call _ _ => call.key

/-- `get_token_data` accepts the token, and it is the account's. -/
def Accepted (redis : Redis) (key : String × String) (token : String) : Prop :=
  ∃ data, getTokenData redis token key.1 = some data ∧ data.accountId = some key.2

/-- At most one token of the type and account is accepted. -/
def AtMostOne (redis : Redis) (key : String × String) : Prop :=
  ∀ token other, Accepted redis key token → Accepted redis key other → token = other

/-- The type and the account of a call that begins. -/
def Command.begins : Command → Option (String × String)
  | .generateToken call => call.key
  | .revokeOld => none
  | .storeToken _ => none
  | .recordToken => none
  | .revokeToken _ _ => none
  | .getTokenData _ _ => none
  | .wait _ => none

/-- No call of `generate_token` for the type and account begins while another one is in
progress. -/
def Alone {ι : Type} (key : String × String) (p : Processes Redis ι Place) (a : ι × Command) :
    Prop :=
  a.2.begins = some key → ∀ j, (p.place j).key ≠ some key

instance {ι : Type} [Fintype ι] (key : String × String) (p : Processes Redis ι Place)
    (a : ι × Command) : Decidable (Alone key p a) :=
  inferInstanceAs (Decidable (_ → _))

section

variable {key : String × String} {redis redis' : Redis} {place place' : Place} {command : Command}
  {token : String} {entry : Entry TokenData}

/-- The entry of a token of the account that has not expired. -/
private structure Live (redis : Redis) (key : String × String) (token : String)
    (entry : Entry TokenData) : Prop where
  stored : redis.tokens (key.1, token) = some entry
  fresh : redis.clock < entry.expires
  owned : entry.value.accountId = some key.2

theorem get_eq_some {α : Type} {slot : Option (Entry α)} {value : α} :
    redis.get slot = some value ↔
      ∃ e, slot = some e ∧ redis.clock < e.expires ∧ e.value = value := by
  cases slot with
  | none => simp [Redis.get]
  | some e => simp [Redis.get]

private theorem accepted_iff : Accepted redis key token ↔ ∃ entry, Live redis key token entry := by
  constructor
  · rintro ⟨data, hget, howned⟩
    obtain ⟨e, hstored, hfresh, rfl⟩ := get_eq_some.mp hget
    exact ⟨e, hstored, hfresh, howned⟩
  · rintro ⟨e, hstored, hfresh, howned⟩
    exact ⟨e.value, get_eq_some.mpr ⟨e, hstored, hfresh, rfl⟩, howned⟩

/-- Every token of the account is its current one, and is recorded at least as long. -/
private def Settled (redis : Redis) (key : String × String) : Prop :=
  ∀ token entry, Live redis key token entry →
    ∃ expires, redis.accounts key = some ⟨token, expires⟩ ∧ entry.expires ≤ expires

/-- What holds of the tokens of the account during the only call for it. -/
private def Staged (redis : Redis) (key : String × String) : Place → Prop
  | .idle => True
  | .revoking _ oldToken => ∀ token entry, Live redis key token entry → token = oldToken
  | .storing _ => ∀ token entry, ¬ Live redis key token entry
  | .recording _ newToken expiryMinutes => ∀ token entry, Live redis key token entry →
      token = newToken ∧ entry.expires ≤ redis.clock + expiryMinutes * 60

/-- The account has no other tokens than before, and the same current one. -/
private structure Shrinks (redis redis' : Redis) (key : String × String) : Prop where
  clock : redis.clock ≤ redis'.clock
  current : redis'.accounts key = redis.accounts key
  live : ∀ token entry, Live redis' key token entry → Live redis key token entry

private theorem Shrinks.rfl : Shrinks redis redis key := ⟨le_rfl, Eq.refl _, fun _ _ h => h⟩

private theorem Settled.shrinks (hs : Settled redis key) (h : Shrinks redis redis' key) :
    Settled redis' key := by
  intro token entry hl
  rw [h.current]
  exact hs token entry (h.live token entry hl)

private theorem Staged.shrinks (hs : Staged redis key place) (h : Shrinks redis redis' key) :
    Staged redis' key place := by
  cases place with
  | idle => trivial
  | revoking call oldToken => exact fun t e hl => hs t e (h.live t e hl)
  | storing call => exact fun t e hl => hs t e (h.live t e hl)
  | recording call newToken expiryMinutes =>
    intro t e hl
    obtain ⟨rfl, hexpires⟩ := hs t e (h.live t e hl)
    exact ⟨Eq.refl _, hexpires.trans (Nat.add_le_add_right h.clock _)⟩

private theorem shrinks_wait (seconds : Nat) :
    Shrinks redis { redis with clock := redis.clock + seconds } key where
  clock := Nat.le_add_right _ _
  current := rfl
  live _ _ h := ⟨h.stored, Nat.lt_of_le_of_lt (Nat.le_add_right _ _) h.fresh, h.owned⟩

private theorem live_revokeToken {old tokenType : String}
    (h : Live (revokeToken redis old tokenType) key token entry) :
    Live redis key token entry ∧ (key.1, token) ≠ (tokenType, old) := by
  obtain ⟨hstored, hfresh, howned⟩ := h
  by_cases he : (key.1, token) = (tokenType, old)
  · rw [he] at hstored
    simp [revokeToken] at hstored
  · simp only [revokeToken, Function.update_of_ne he] at hstored
    exact ⟨⟨hstored, hfresh, howned⟩, he⟩

private theorem shrinks_revokeToken (old tokenType : String) :
    Shrinks redis (revokeToken redis old tokenType) key :=
  ⟨le_rfl, rfl, fun _ _ h => (live_revokeToken h).1⟩

private theorem live_storeToken {call : Call} {newToken : String} {expiryMinutes : Nat}
    (h : Live (storeToken redis call newToken expiryMinutes) key token entry) :
    Live redis key token entry ∨
      call.key = some key ∧ token = newToken ∧
        entry.expires = redis.clock + expiryMinutes * 60 := by
  obtain ⟨hstored, hfresh, howned⟩ := h
  by_cases he : (key.1, token) = (call.tokenType, newToken)
  · rw [he] at hstored
    simp only [storeToken, Function.update_self, Option.some.injEq] at hstored
    subst hstored
    obtain ⟨htype, rfl⟩ := Prod.mk.inj he
    refine .inr ⟨?_, rfl, rfl⟩
    obtain ⟨account, haccount, hid⟩ := Option.map_eq_some_iff.mp howned
    rw [Call.key, haccount, Option.map_some, hid, ← htype]
  · simp only [storeToken, Function.update_of_ne he] at hstored
    exact .inl ⟨hstored, hfresh, howned⟩

variable {configured : String → Option Nat} {ι : Type}

private theorem outside {i : ι} (hkey : place.key ≠ some key)
    (h : operate configured i redis place command = some (redis', place')) :
    Shrinks redis redis' key := by
  unfold operate at h
  split at h
  next call =>
    split at h
    next account _ =>
      split at h
      · cases h
        exact .rfl
      · cases h
        exact .rfl
    next =>
      cases h
      exact .rfl
  next =>
    cases h
    exact shrinks_revokeToken _ _
  next call newToken =>
    split at h
    next =>
      cases h
      exact .rfl
    next expiryMinutes _ =>
      cases h
      exact ⟨le_rfl, rfl, fun t e hl =>
        (live_storeToken hl).resolve_right fun hnew => hkey hnew.1⟩
  next call newToken expiryMinutes =>
    split at h
    next account haccount =>
      cases h
      refine ⟨le_rfl, ?_, fun t e hl => ⟨hl.stored, hl.fresh, hl.owned⟩⟩
      refine Function.update_of_ne (fun he => hkey ?_) ..
      rw [Place.key, Call.key, haccount, he, Option.map_some]
    next =>
      cases h
      exact .rfl
  next =>
    cases h
    exact shrinks_revokeToken _ _
  next =>
    cases h
    exact .rfl
  next =>
    cases h
    exact shrinks_wait _
  next => cases h

private theorem begin_staged {i : ι} (hkey : place.key ≠ some key) (hkey' : place'.key = some key)
    (h : operate configured i redis place command = some (redis', place')) :
    command.begins = some key ∧ (Settled redis key → Staged redis' key place') := by
  unfold operate at h
  split at h
  next call =>
    split at h
    next account haccount =>
      have hcall : call.key = some key → (call.tokenType, account.id) = key := by
        intro hk
        rw [Call.key, haccount] at hk
        exact Option.some.inj hk
      split at h
      next oldToken hget =>
        cases h
        have hk := hcall hkey'
        obtain ⟨e, hcurrent, -, hvalue⟩ := get_eq_some.mp hget
        refine ⟨hkey', fun hs token entry hl => ?_⟩
        obtain ⟨expires, haccounts, -⟩ := hs token entry hl
        rw [hk, haccounts] at hcurrent
        cases hcurrent
        exact hvalue
      next hget =>
        cases h
        have hk := hcall hkey'
        refine ⟨hkey', fun hs token entry hl => ?_⟩
        -- a token outlived by its record would have been found
        obtain ⟨expires, haccounts, hexpires⟩ := hs token entry hl
        have hsome := get_eq_some.mpr ⟨_, haccounts, hl.fresh.trans_le hexpires, rfl⟩
        rw [getCurrentTokenForAccount, hk, hsome] at hget
        cases hget
    next haccount =>
      cases h
      split at hkey'
      · cases hkey'
      · rw [Place.key, Call.key, haccount] at hkey'
        cases hkey'
  next =>
    cases h
    exact absurd hkey' hkey
  next call newToken =>
    split at h
    next =>
      cases h
      cases hkey'
    next =>
      cases h
      exact absurd hkey' hkey
  next =>
    split at h
    · cases h
      cases hkey'
    · cases h
      cases hkey'
  next =>
    cases h
    cases hkey'
  next =>
    cases h
    cases hkey'
  next =>
    cases h
    exact absurd hkey' hkey
  next => cases h

private theorem own_staged {i : ι} (hs : Staged redis key place) (hkey : place.key = some key)
    (h : operate configured i redis place command = some (redis', place')) :
    (place'.key = some key → Staged redis' key place') ∧
      (place'.key ≠ some key → Settled redis' key) := by
  unfold operate at h
  split at h
  next => cases hkey
  next call oldToken =>
    cases h
    refine ⟨fun _ token entry hl => ?_, fun hne => absurd hkey hne⟩
    obtain ⟨hl, hne⟩ := live_revokeToken hl
    obtain ⟨account, -, hk⟩ := Option.map_eq_some_iff.mp hkey
    rw [← hk] at hne
    exact hne (by rw [hs token entry hl])
  next call newToken =>
    split at h
    next =>
      cases h
      exact ⟨fun _ => trivial, fun _ token entry hl => absurd hl (hs token entry)⟩
    next expiryMinutes _ =>
      cases h
      refine ⟨fun _ token entry hl => ?_, fun hne => absurd hkey hne⟩
      obtain hold | ⟨-, rfl, hexpires⟩ := live_storeToken hl
      · exact absurd hold (hs token entry)
      · exact ⟨rfl, hexpires.le⟩
  next call newToken expiryMinutes =>
    split at h
    next account haccount =>
      cases h
      refine ⟨fun _ => trivial, fun _ token entry hl => ?_⟩
      rw [Place.key, Call.key, haccount] at hkey
      obtain ⟨rfl, hexpires⟩ := hs token entry ⟨hl.stored, hl.fresh, hl.owned⟩
      refine ⟨redis.clock + expiryMinutes * 60, ?_, hexpires⟩
      rw [← Option.some.inj hkey]
      exact Function.update_self ..
    next haccount =>
      rw [Place.key, Call.key, haccount] at hkey
      cases hkey
  next => cases hkey
  next => cases hkey
  next =>
    cases h
    exact ⟨fun _ => hs.shrinks (shrinks_wait _), fun hne => absurd hkey hne⟩
  next => cases h

/-- Between calls the account is settled, and the only call for it has got somewhere. -/
private structure Orderly {ι : Type} (key : String × String) (p : Processes Redis ι Place) :
    Prop where
  settled : (∀ i, (p.place i).key ≠ some key) → Settled p.shared key
  staged : ∀ i, (p.place i).key = some key →
    Staged p.shared key (p.place i) ∧ ∀ j, j ≠ i → (p.place j).key ≠ some key

private theorem Orderly.step [DecidableEq ι]
    {p p' : Processes Redis ι Place} {a : ι × Command} (ho : Orderly key p) (ha : Alone key p a)
    (h : step configured p a = some p') : Orderly key p' := by
  obtain ⟨i, command⟩ := a
  obtain ⟨redis', place', hact, rfl⟩ := Processes.step_eq_some.mp h
  by_cases hkey : (p.place i).key = some key
  · obtain ⟨hstaged, hothers⟩ := ho.staged i hkey
    obtain ⟨hon, hdone⟩ := own_staged hstaged hkey hact
    constructor
    · intro hnone
      have hi := hnone i
      rw [Processes.place_update_self] at hi
      exact hdone hi
    · intro j hj
      change (Function.update p.place i place' j).key = some key at hj
      obtain ⟨rfl, hj'⟩ | ⟨hne, hj'⟩ :=
        Processes.of_update (P := fun l : Place => l.key = some key) hj
      · rw [Processes.place_update_self]
        refine ⟨hon hj', fun k hk => ?_⟩
        rw [Processes.place_update_of_ne _ _ hk]
        exact hothers k hk
      · exact absurd hj' (hothers j hne)
  by_cases hkey' : place'.key = some key
  · obtain ⟨hcall, hbegin⟩ := begin_staged hkey hkey' hact
    have hnone : ∀ j, (p.place j).key ≠ some key := ha hcall
    constructor
    · intro hall
      have hi := hall i
      rw [Processes.place_update_self] at hi
      exact absurd hkey' hi
    · intro j hj
      change (Function.update p.place i place' j).key = some key at hj
      obtain ⟨rfl, -⟩ | ⟨hne, hj'⟩ :=
        Processes.of_update (P := fun l : Place => l.key = some key) hj
      · rw [Processes.place_update_self]
        refine ⟨hbegin (ho.settled hnone), fun k hk => ?_⟩
        rw [Processes.place_update_of_ne _ _ hk]
        exact hnone k
      · exact absurd hj' (hnone j)
  · have hshrinks := outside hkey hact
    constructor
    · intro hnone
      refine (ho.settled fun j => ?_).shrinks hshrinks
      by_cases hj : j = i
      · rw [hj]
        exact hkey
      · have := hnone j
        rwa [Processes.place_update_of_ne _ _ hj] at this
    · intro j hj
      change (Function.update p.place i place' j).key = some key at hj
      obtain ⟨rfl, hj'⟩ | ⟨hne, hj'⟩ :=
        Processes.of_update (P := fun l : Place => l.key = some key) hj
      · exact absurd hj' hkey'
      · obtain ⟨hstaged, hothers⟩ := ho.staged j hj'
        rw [Processes.place_update_of_ne _ _ hne]
        refine ⟨hstaged.shrinks hshrinks, fun k hk => ?_⟩
        by_cases hki : k = i
        · rw [hki, Processes.place_update_self]
          exact hkey'
        · rw [Processes.place_update_of_ne _ _ hki]
          exact hothers k hk

private theorem Settled.atMostOne (hs : Settled redis key) : AtMostOne redis key := by
  intro token other ht ho
  obtain ⟨e, he⟩ := accepted_iff.mp ht
  obtain ⟨f, hf⟩ := accepted_iff.mp ho
  obtain ⟨_, htoken, -⟩ := hs token e he
  obtain ⟨_, hother, -⟩ := hs other f hf
  rw [htoken] at hother
  cases hother
  rfl

private theorem orderly_start (clock : Nat) : Orderly key (start ι clock) := by
  constructor
  · intro _ token entry hl
    cases hl.stored
  · intro i hi
    cases hi

end

/-- Where no two calls for a type and account overlap, at most one token for them is accepted
whenever none is in progress. -/
theorem atMostOne_of_alone {ι : Type} [DecidableEq ι] (configured : String → Option Nat)
    (key : String × String) {clock : Nat} {as : List (ι × Command)} {p : Processes Redis ι Place}
    (hrun : run (step configured) (start ι clock) as = some p)
    (halone : ∀ pre a post m, as = pre ++ a :: post →
      run (step configured) (start ι clock) pre = some m → Alone key m a)
    (hnone : ∀ i, (p.place i).key ≠ some key) : AtMostOne p.shared key := by
  have ho : Orderly key p :=
    run_induction (Alone key) (fun _ _ _ hk ha hst => hk.step ha hst) (orderly_start clock)
      halone hrun
  exact (ho.settled hnone).atMostOne

/-- A call for the account of the runs below. -/
def resetCall : Call := ⟨"reset_password", some ⟨"a", "a@b.c"⟩, none, []⟩

/-- Two calls, one after the other, and a look at the token that is left. -/
def inTurn : List (Bool × Command) :=
  [(true, .generateToken resetCall), (true, .storeToken "t"), (true, .recordToken),
    (false, .generateToken resetCall), (false, .wait 7), (false, .revokeOld),
    (false, .storeToken "u"), (false, .recordToken), (true, .getTokenData "u" "reset_password")]

/-- Two calls that read the current token before either of them has recorded its own. -/
def overlapping : List (Bool × Command) :=
  [(true, .generateToken resetCall), (false, .generateToken resetCall), (true, .storeToken "t"),
    (false, .storeToken "u"), (true, .recordToken), (false, .recordToken)]

theorem inTurn_atMostOne :
    ∃ p, run (step fun _ => some 5) (start Bool 0) inTurn = some p ∧
      (getTokenData p.shared "u" "reset_password").isSome ∧
      AtMostOne p.shared ("reset_password", "a") := by
  obtain ⟨p, hp, hnone, hsome⟩ : ∃ p, run (step fun _ => some 5) (start Bool 0) inTurn = some p ∧
      (∀ i, (p.place i).key ≠ some ("reset_password", "a")) ∧
        (getTokenData p.shared "u" "reset_password").isSome := by
    decide
  refine ⟨p, hp, hsome, atMostOne_of_alone _ _ hp (fun pre a post m he hm => ?_) hnone⟩
  have htest : testRun (step fun _ => some 5)
      (fun m a => decide (Alone ("reset_password", "a") m a)) (start Bool 0) inTurn = true := by
    decide
  exact of_decide_eq_true (allowed_of_testRun htest pre a post m he hm)

/-- Both of two overlapping calls leave a token that is accepted. -/
theorem overlapping_both_accepted :
    ∃ p, run (step fun _ => some 5) (start Bool 0) overlapping = some p ∧
      (∀ i, (p.place i).key ≠ some ("reset_password", "a")) ∧
      ¬ AtMostOne p.shared ("reset_password", "a") := by
  obtain ⟨p, hp, hnone, ht, hu⟩ : ∃ p,
      run (step fun _ => some 5) (start Bool 0) overlapping = some p ∧
      (∀ i, (p.place i).key ≠ some ("reset_password", "a")) ∧
        getTokenData p.shared "t" "reset_password" = some resetCall.tokenData ∧
          getTokenData p.shared "u" "reset_password" = some resetCall.tokenData := by
    decide
  refine ⟨p, hp, hnone, fun hone => ?_⟩
  have := hone "t" "u" ⟨_, ht, rfl⟩ ⟨_, hu, rfl⟩
  revert this
  decide

end PlatformSpec.Service.TokenManager
