import Std.Data.ExtTreeMap.Lemmas
import PlatformSpec.Base.Interleaving

/-!
# The limit on active requests of an app

Models `core/app/features/rate_limiting/rate_limit.py`: the Redis operations of `enter` and
`exit`, the context manager and the generator that release a request. Every use of the limit
is a process; its request id may be shared. Clock readings come with the operations.
-/

namespace PlatformSpec.Service.RateLimit

open Base

abbrev RequestId := String

/-- `_REQUEST_MAX_ALIVE_TIME`, in seconds. -/
def requestMaxAliveTime : Int := 10 * 60

/-- The active-requests hash: when each request entered. -/
abbrev ActiveRequests := Std.ExtTreeMap RequestId Int

/-- The way a request is released: `rate_limit_context` or `RateLimitGenerator`. -/
inductive Release where
  | context
  | generator
  deriving DecidableEq

/-- How a request ends: the body of the context returns or raises; the generator is
exhausted, raises, or is closed. -/
inductive Ending where
  | bodyReturns
  | bodyRaises
  | exhausted
  | raises
  | close
  deriving DecidableEq

/-- Whether an ending calls `exit`. The statement after `yield` in `rate_limit_context` is
not reached when the body raises; every end of a generator goes through its `close`. -/
def callsExit : Release → Ending → Option Bool
  | .context, .bodyReturns => some true
  | .context, .bodyRaises => some false
  | .generator, .exhausted => some true
  | .generator, .raises => some true
  | .generator, .close => some true
  | _, _ => none

/-- Where a use of the limit is: not begun, between the two operations of `flush_cache`,
about to count, past the check, rejected, running with or without an entry, or ended. -/
inductive Place where
  | called
  | flushing (timeoutRequests : List RequestId)
  | flushed
  | counted
  | rejected
  | active
  | unlimited
  | ended
  deriving DecidableEq

/-- The Redis operations of `enter`, and the end of a request. -/
inductive Operation where
  | skipFlush
  | hgetall (now : Int)
  | hdelTimeouts
  | hlen
  | hset (now : Int)
  | finish (ending : Ending)
  deriving DecidableEq

/-- `disabled`. -/
def disabled (maxActiveRequests : Int) : Bool := maxActiveRequests ≤ 0

/-- The requests that `flush_cache` drops. -/
def timeoutRequests (active : ActiveRequests) (now : Int) : List RequestId :=
  (active.toList.filter fun e => now - e.2 > requestMaxAliveTime).map Prod.fst

/-- `hdel`. -/
def hdel (active : ActiveRequests) (ids : List RequestId) : ActiveRequests :=
  ids.foldl (fun a id => a.erase id) active

/-- One operation of a use with request id `id`. -/
def operate (maxActiveRequests : Int) (id : RequestId) (release : Release)
    (active : ActiveRequests) : Place → Operation → Option (ActiveRequests × Place)
  | .called, .skipFlush =>
    if disabled maxActiveRequests then some (active, .unlimited) else some (active, .flushed)
  | .called, .hgetall now =>
    if disabled maxActiveRequests then none
    else some (active, .flushing (timeoutRequests active now))
  | .flushing ids, .hdelTimeouts => some (hdel active ids, .flushed)
  | .flushed, .hlen =>
    if maxActiveRequests ≤ active.size then some (active, .rejected) else some (active, .counted)
  | .counted, .hset now => some (active.insert id now, .active)
  | .active, .finish ending =>
    (callsExit release ending).map fun exits =>
      (if exits then active.erase id else active, .ended)
  | .unlimited, .finish ending =>
    (callsExit release ending).map fun _ => (active, .ended)
  | _, _ => none

/-- Concurrent uses of one limit. -/
abbrev Uses (ι : Type) := Processes ActiveRequests ι Place

section Bound

variable {ι : Type} [DecidableEq ι] (maxActiveRequests : Int) (id : ι → RequestId)
  (release : ι → Release)

/-- One operation of one use. -/
def step : Uses ι → ι × Operation → Option (Uses ι) :=
  Processes.step fun i => operate maxActiveRequests (id i) (release i)

/-- No use has begun and the hash is empty. -/
def start : Uses ι := ⟨∅, fun _ => .called⟩

/-- The hash holds no more entries than allowed. -/
def Bounded (u : Uses ι) : Prop := (u.shared.size : Int) ≤ maxActiveRequests

/-- The entry of an ended request is gone, unless another use of its id is running. -/
def Released (u : Uses ι) : Prop :=
  ∀ i, u.place i = .ended → id i ∈ u.shared → ∃ j, u.place j = .active ∧ id j = id i

/-- A write still finds a free place (or its own entry), and a context body raises only when
the entry is gone or another use of the id is running. -/
def Safe (u : Uses ι) : ι × Operation → Prop
  | (i, .hset _) => u.place i = .counted →
    id i ∈ u.shared ∨ (u.shared.size : Int) < maxActiveRequests
  | (i, .finish ending) => u.place i = .active → callsExit (release i) ending = some false →
    id i ∈ u.shared → ∃ j, j ≠ i ∧ u.place j = .active ∧ id j = id i
  | _ => True

variable {maxActiveRequests id release}

theorem mem_hdel {active : ActiveRequests} {ids : List RequestId} {k : RequestId}
    (h : k ∈ hdel active ids) : k ∈ active := by
  unfold hdel at h
  induction ids generalizing active with
  | nil => exact h
  | cons a ids ih => exact Std.ExtTreeMap.mem_of_mem_erase (ih h)

theorem size_hdel_le (active : ActiveRequests) (ids : List RequestId) :
    (hdel active ids).size ≤ active.size := by
  unfold hdel
  induction ids generalizing active with
  | nil => exact Nat.le_refl _
  | cons a ids ih => exact Nat.le_trans (ih (active.erase a)) Std.ExtTreeMap.size_erase_le

variable {n : Int}

private theorem operate_cases (hn : disabled n = false) {k : RequestId} {r : Release}
    {a a' : ActiveRequests} {l l' : Place} {o : Operation}
    (h : operate n k r a l o = some (a', l')) (hl : l ≠ .unlimited) :
    l' ≠ .unlimited ∧ ((∃ ids, a' = hdel a ids ∧ l ≠ .active ∧ l' ≠ .ended ∧ ∀ now, o ≠ .hset now) ∨
    (∃ now, l = .counted ∧ o = .hset now ∧ l' = .active ∧ a' = a.insert k now) ∨
    ∃ ending exits, l = .active ∧ o = .finish ending ∧ callsExit r ending = some exits ∧
      l' = .ended ∧ a' = if exits then a.erase k else a) := by
  unfold operate at h
  split at h
  next =>
    simp only [hn, Bool.false_eq_true, if_false, Option.some.injEq, Prod.mk.injEq] at h
    obtain ⟨rfl, rfl⟩ := h
    exact ⟨by simp, .inl ⟨[], rfl, by simp, by simp, by simp⟩⟩
  next =>
    simp only [hn, Bool.false_eq_true, if_false, Option.some.injEq, Prod.mk.injEq] at h
    obtain ⟨rfl, rfl⟩ := h
    exact ⟨by simp, .inl ⟨[], rfl, by simp, by simp, by simp⟩⟩
  next ids =>
    cases h
    exact ⟨by simp, .inl ⟨ids, rfl, by simp, by simp, by simp⟩⟩
  next =>
    split at h
    next =>
      cases h
      exact ⟨by simp, .inl ⟨[], rfl, by simp, by simp, by simp⟩⟩
    next =>
      cases h
      exact ⟨by simp, .inl ⟨[], rfl, by simp, by simp, by simp⟩⟩
  next now =>
    cases h
    exact ⟨by simp, .inr (.inl ⟨now, rfl, rfl, rfl, rfl⟩)⟩
  next ending =>
    obtain ⟨exits, hexits, he⟩ := Option.map_eq_some_iff.mp h
    cases he
    exact ⟨by simp, .inr (.inr ⟨ending, exits, rfl, rfl, hexits, rfl, rfl⟩)⟩
  next => exact absurd rfl hl
  next => cases h

variable {a : ι × Operation} {u u' : Uses ι}

private theorem limited_step (hn : disabled n = false) (h : ∀ i, u.place i ≠ .unlimited)
    (hstep : step n id release u a = some u') : ∀ i, u'.place i ≠ .unlimited := by
  obtain ⟨i, o⟩ := a
  obtain ⟨a', l', hop, rfl⟩ := Processes.step_eq_some.mp hstep
  intro j
  show Function.update u.place i l' j ≠ .unlimited
  by_cases hj : j = i
  · rw [hj, Function.update_self]
    exact (operate_cases hn hop (h i)).1
  · rw [Function.update_of_ne hj]
    exact h j

private theorem bounded_step (hn : disabled n = false)
    (hlim : ∀ i, u.place i ≠ .unlimited) (hbound : Bounded n u)
    (ha : Safe n id release u a) (hstep : step n id release u a = some u') : Bounded n u' := by
  obtain ⟨i, o⟩ := a
  obtain ⟨a', l', hop, rfl⟩ := Processes.step_eq_some.mp hstep
  obtain ⟨-, hcase⟩ := operate_cases hn hop (hlim i)
  unfold Bounded at hbound ⊢
  rcases hcase with ⟨ids, rfl, -, -, -⟩ | ⟨now, hl, rfl, -, rfl⟩ |
    ⟨ending, exits, -, -, -, -, rfl⟩
  · have := size_hdel_le u.shared ids
    simp only
    omega
  · have hroom := ha hl
    simp only [Std.ExtTreeMap.size_insert]
    split
    next => exact hbound
    next hnew =>
      have := hroom.resolve_left hnew
      omega
  · simp only
    split
    next =>
      have := Std.ExtTreeMap.size_erase_le (t := u.shared) (k := id i)
      omega
    next => exact hbound

private theorem released_step (hn : disabled n = false)
    (hlim : ∀ i, u.place i ≠ .unlimited) (hr : Released id u)
    (ha : Safe n id release u a) (hstep : step n id release u a = some u') : Released id u' := by
  obtain ⟨i, o⟩ := a
  obtain ⟨a', l', hop, rfl⟩ := Processes.step_eq_some.mp hstep
  obtain ⟨-, hcase⟩ := operate_cases hn hop (hlim i)
  -- A use other than `i` that was running still is.
  have hother : ∀ k j, k ≠ i → u.place k = .active → id k = id j →
      ∃ k, Function.update u.place i l' k = .active ∧ id k = id j :=
    fun k j hk hact hid => ⟨k, (Function.update_of_ne hk _ _).trans hact, hid⟩
  intro j hj hin
  change Function.update u.place i l' j = .ended at hj
  change id j ∈ a' at hin
  show ∃ k, Function.update u.place i l' k = .active ∧ id k = id j
  rcases hcase with ⟨ids, rfl, hl, hl', -⟩ | ⟨now, hl, -, rfl, rfl⟩ |
    ⟨ending, exits, hl, rfl, hexits, rfl, rfl⟩
  · have hji : j ≠ i := by
      rintro rfl
      rw [Function.update_self] at hj
      exact hl' hj
    rw [Function.update_of_ne hji] at hj
    obtain ⟨k, hk, hid⟩ := hr j hj (mem_hdel hin)
    exact hother k j (fun hki => hl (hki ▸ hk)) hk hid
  · have hji : j ≠ i := by
      rintro rfl
      rw [Function.update_self] at hj
      cases hj
    rw [Function.update_of_ne hji] at hj
    by_cases hid : id i = id j
    · exact ⟨i, Function.update_self i _ _, hid⟩
    · have hold : id j ∈ u.shared :=
        (Std.ExtTreeMap.mem_insert.mp hin).resolve_left (by simpa using hid)
      obtain ⟨k, hk, hkid⟩ := hr j hj hold
      refine hother k j (fun hki => ?_) hk hkid
      rw [hki, hl] at hk
      cases hk
  · cases exits with
    | true =>
      obtain ⟨hid, hold⟩ := Std.ExtTreeMap.mem_erase.mp hin
      have hne : id i ≠ id j := by simpa using hid
      have hji : j ≠ i := fun hji => hne (hji ▸ rfl)
      rw [Function.update_of_ne hji] at hj
      obtain ⟨k, hk, hkid⟩ := hr j hj hold
      exact hother k j (fun hki => hne (hki ▸ hkid)) hk hkid
    | false =>
      by_cases hji : id j = id i
      · obtain ⟨k, hki, hk, hkid⟩ := ha hl hexits (hji ▸ hin)
        exact hother k j hki hk (hkid.trans hji.symm)
      · have hne : j ≠ i := fun he => hji (he ▸ rfl)
        rw [Function.update_of_ne hne] at hj
        obtain ⟨k, hk, hkid⟩ := hr j hj hin
        exact hother k j (fun hki => hji (hkid.symm.trans (hki ▸ rfl))) hk hkid

theorem safe_of_held (hstep : step n id release u a = some u') (hb : Bounded n u')
    (hr : Released id u') : Safe n id release u a := by
  obtain ⟨i, o⟩ := a
  obtain ⟨a', l', hop, rfl⟩ := Processes.step_eq_some.mp hstep
  cases o with
  | hset now =>
    intro hl
    rw [hl] at hop
    cases hop
    unfold Bounded at hb
    simp only [Std.ExtTreeMap.size_insert] at hb
    split at hb
    next hold => exact .inl hold
    next => exact .inr (by omega)
  | finish ending =>
    intro hl hexits hin
    rw [hl] at hop
    simp only [operate, hexits, Option.map_some, Bool.false_eq_true, if_false] at hop
    cases hop
    obtain ⟨j, hj, hid⟩ := hr i (Function.update_self i _ _) hin
    change Function.update u.place i .ended j = .active at hj
    have hji : j ≠ i := by
      rintro rfl
      rw [Function.update_self] at hj
      cases hj
    rw [Function.update_of_ne hji] at hj
    exact ⟨j, hji, hj, hid⟩
  | skipFlush => trivial
  | hgetall now => trivial
  | hdelTimeouts => trivial
  | hlen => trivial

end Bound

/-- Two requests, the first in a context, the second with a generator. -/
def twoRelease (first : Bool) : Release := if first then .context else .generator

/-- Their request ids. -/
def twoIds (first : Bool) : RequestId := if first then "first" else "second"

/-- One request after the other, under a limit of one. -/
def oneByOne : List (Bool × Operation) := [
  (true, .skipFlush), (true, .hlen), (true, .hset 0), (true, .finish .bodyReturns),
  (false, .hgetall 700), (false, .hdelTimeouts), (false, .hlen), (false, .hset 700),
  (false, .finish .close)]

end PlatformSpec.Service.RateLimit
