import Mathlib.Algebra.Order.Ring.Int
import Mathlib.Data.Fintype.EquivFin
import Mathlib.Data.List.Rotate

/-!
# The next load balancing configuration

Models `fetch_next` and `in_cooldown` of `LBModelManager` in `core/model_manager.py`: configurations
are probed where a counter points to that all callers share. Between two probes the other callers
may change the counter in any way that the code does, and cooldowns come and go.
-/

namespace PlatformSpec.Service.LoadBalancing

/-- `ModelLoadBalancingConfiguration`, as the search reads it. -/
structure LoadBalancingConfig where
  id : String
  credentialId : Option String := none
  deriving DecidableEq

/-- What another caller does to the counter, or its expiry. -/
inductive CounterStep where
  | incr
  | reset
  | expire
  deriving DecidableEq

/-- The counter after a step; a missing key counts as zero. -/
def CounterStep.apply : Nat → CounterStep → Nat
  | counter, incr => counter + 1
  | _, reset => 1
  | _, expire => 0

/-- What is around a call: the steps of others before each probe, and at each probe which
configurations are in cooldown and which credentials comply with the policy. -/
structure Surroundings where
  others : Nat → List CounterStep
  inCooldown : Nat → LoadBalancingConfig → Bool
  compliant : Nat → String → Bool

/-- The exceptions of the search. -/
inductive FetchError where
  | zeroDivision
  | indexError
  deriving DecidableEq

/-- `incr`, and `set` where the limit of the counter is reached: what the call reads is what it
leaves. -/
def nextIndex (counter : Nat) : Nat := if 10000000 ≤ counter + 1 then 1 else counter + 1

/-- From the counter to an index of the list. -/
def realIndex (maxIndex currentIndex : Int) : Except FetchError Int := do
  let currentIndex ←
    if maxIndex < currentIndex then
      if maxIndex = 0 then throw .zeroDivision else pure (currentIndex % maxIndex)
    else pure currentIndex
  let realIndex := currentIndex - 1
  return if maxIndex < realIndex then 0 else realIndex

/-- `l[i]`, where a negative index counts from the end. -/
def item {α : Type} (l : List α) (i : Int) : Except FetchError α :=
  match if 0 ≤ i then l[i.toNat]? else if -l.length ≤ i then l[(l.length + i).toNat]? else none with
  | some a => .ok a
  | none => .error .indexError

/-- In cooldown, or not compliant; without a credential there is nothing to comply with. -/
def Surroundings.blocked (s : Surroundings) (probe : Nat) (config : LoadBalancingConfig) : Bool :=
  s.inCooldown probe config ||
    match config.credentialId with
    | none => false
    | some credentialId => !(credentialId = "" || s.compliant probe credentialId)

/-- The loop of `fetch_next`, with the probes made, the counter and the configurations found in
cooldown. -/
def fetchFrom (configs : List LoadBalancingConfig) (s : Surroundings) (probe counter : Nat)
    (cooldownConfigs : List LoadBalancingConfig) :
    Except FetchError (Option LoadBalancingConfig) :=
  let currentIndex := nextIndex ((s.others probe).foldl CounterStep.apply counter)
  match realIndex configs.length currentIndex >>= item configs with
  | .error e => .error e
  | .ok config =>
    if s.blocked probe config then
      if configs.length ≤ (cooldownConfigs ++ [config]).length then .ok none
      else fetchFrom configs s (probe + 1) currentIndex (cooldownConfigs ++ [config])
    else .ok (some config)
termination_by configs.length - cooldownConfigs.length
decreasing_by simp only [List.length_append, List.length_singleton] at *; omega

/-- `fetch_next`. -/
def fetchNext (configs : List LoadBalancingConfig) (s : Surroundings) (counter : Nat) :
    Except FetchError (Option LoadBalancingConfig) :=
  fetchFrom configs s 0 counter []

/-- The search returns: a configuration that was free when it was probed, or none, and then every
configuration was blocked at one of the probes. -/
def FindsAvailable (configs : List LoadBalancingConfig) (s : Surroundings) (counter : Nat) : Prop :=
  match fetchNext configs s counter with
  | .ok (some config) =>
    config ∈ configs ∧ ∃ probe < configs.length, s.blocked probe config = false
  | .ok none => ∀ config ∈ configs, ∃ probe < configs.length, s.blocked probe config = true
  | .error _ => False

/-! ## Where the probes fall -/

/-- The counter that a probe reads. -/
def valueAt (others : Nat → List CounterStep) (counter : Nat) : Nat → Nat
  | 0 => nextIndex ((others 0).foldl CounterStep.apply counter)
  | probe + 1 => nextIndex ((others (probe + 1)).foldl CounterStep.apply
      (valueAt others counter probe))

/-- The probes of a call fall on every configuration. -/
def Covers (configs : List LoadBalancingConfig) (others : Nat → List CounterStep)
    (counter : Nat) : Prop :=
  ∀ config ∈ configs, ∃ probe < configs.length,
    configs[(valueAt others counter probe + configs.length - 1) % configs.length]? = some config

variable {configs cooldownConfigs : List LoadBalancingConfig} {s : Surroundings}
  {others : Nat → List CounterStep} {counter probe value : Nat}

theorem nextIndex_pos (counter : Nat) : 0 < nextIndex counter := by
  rw [nextIndex]
  split
  · exact Nat.one_pos
  · exact Nat.succ_pos counter

theorem valueAt_pos (others : Nat → List CounterStep) (counter probe : Nat) :
    0 < valueAt others counter probe := by
  cases probe with
  | zero => exact nextIndex_pos _
  | succ probe => exact nextIndex_pos _

/-- A probe falls on the configuration before the one the counter counts up to. -/
theorem item_realIndex (hvalue : 0 < value) (hne : configs ≠ []) :
    ∃ config, (realIndex configs.length value >>= item configs) = .ok config ∧
      configs[(value + configs.length - 1) % configs.length]? = some config := by
  have hpos : 0 < configs.length := List.length_pos_iff.mpr hne
  obtain ⟨config, hconfig⟩ : ∃ config,
      configs[(value + configs.length - 1) % configs.length]? = some config :=
    ⟨_, List.getElem?_eq_getElem (Nat.mod_lt _ hpos)⟩
  refine ⟨config, ?_, hconfig⟩
  have hitem (i : Int) (hi : i = (((value + configs.length - 1) % configs.length : Nat) : Int) ∨
      (i = -1 ∧ (value + configs.length - 1) % configs.length = configs.length - 1)) :
      item configs i = .ok config := by
    rcases hi with rfl | ⟨rfl, hlast⟩
    · rw [item, if_pos (Int.natCast_nonneg _), Int.toNat_natCast, hconfig]
    · have hback : ((configs.length : Int) + -1).toNat =
          (value + configs.length - 1) % configs.length := by omega
      rw [item, if_neg (by omega), if_pos (by omega), hback, hconfig]
  by_cases hle : value ≤ configs.length
  · have hmod : (value + configs.length - 1) % configs.length = value - 1 := by
      rw [show value + configs.length - 1 = value - 1 + configs.length by omega,
        Nat.add_mod_right, Nat.mod_eq_of_lt (by omega)]
    have hreal : realIndex configs.length value = .ok ((value : Int) - 1) := by
      rw [realIndex, if_neg (by omega)]
      exact congrArg Except.ok (if_neg (by omega))
    rw [hreal]
    apply hitem
    left
    omega
  · have hreal : realIndex configs.length value =
        .ok (((value % configs.length : Nat) : Int) - 1) := by
      have hlt := Nat.mod_lt value hpos
      rw [realIndex, if_pos (by omega), if_neg (by omega)]
      exact congrArg Except.ok (if_neg (by omega))
    rw [hreal]
    apply hitem
    have hlt := Nat.mod_lt value hpos
    have hsum : (value + configs.length - 1) % configs.length =
        (value % configs.length + (configs.length - 1)) % configs.length := by
      rw [Nat.add_sub_assoc hpos, Nat.mod_add_mod]
    by_cases hzero : value % configs.length = 0
    · have hlast : (0 + (configs.length - 1)) % configs.length = configs.length - 1 := by
        rw [Nat.zero_add]
        exact Nat.mod_eq_of_lt (by omega)
      right
      rw [hsum, hzero, hlast]
      exact ⟨rfl, rfl⟩
    · have hback : (value % configs.length + (configs.length - 1)) % configs.length =
          value % configs.length - 1 := by
        have hshift : value % configs.length + (configs.length - 1) =
            value % configs.length - 1 + configs.length := by omega
        rw [hshift, Nat.add_mod_right]
        exact Nat.mod_eq_of_lt (by omega)
      left
      rw [hsum, hback]
      omega

private theorem fetchFrom_spec (hne : configs ≠ [])
    (hcounter : nextIndex ((s.others probe).foldl CounterStep.apply counter) =
      valueAt s.others value probe)
    (hlength : cooldownConfigs.length = probe) (hprobe : probe < configs.length) :
    (∃ later < configs.length, ∃ config,
        configs[(valueAt s.others value later + configs.length - 1) % configs.length]? =
          some config ∧
        s.blocked later config = false ∧
        fetchFrom configs s probe counter cooldownConfigs = .ok (some config)) ∨
      fetchFrom configs s probe counter cooldownConfigs = .ok none ∧
        ∀ later, probe ≤ later → later < configs.length → ∃ config,
          configs[(valueAt s.others value later + configs.length - 1) % configs.length]? =
            some config ∧ s.blocked later config = true := by
  induction hleft : configs.length - probe generalizing probe counter cooldownConfigs with
  | zero => omega
  | succ left ih =>
    obtain ⟨config, hitem, hconfig⟩ := item_realIndex (valueAt_pos s.others value probe) hne
    rw [fetchFrom, hcounter, hitem]
    dsimp only
    cases hblocked : s.blocked probe config with
    | false => exact .inl ⟨probe, hprobe, config, hconfig, hblocked, rfl⟩
    | true =>
      rw [if_pos rfl]
      by_cases hlast : configs.length ≤ (cooldownConfigs ++ [config]).length
      · rw [if_pos hlast]
        rw [List.length_append, List.length_singleton] at hlast
        refine .inr ⟨rfl, fun later hfrom hto => ?_⟩
        obtain rfl : later = probe := by omega
        exact ⟨config, hconfig, hblocked⟩
      · rw [if_neg hlast]
        rw [List.length_append, List.length_singleton] at hlast
        have hgrown : (cooldownConfigs ++ [config]).length = probe + 1 := by
          rw [List.length_append, List.length_singleton, hlength]
        have hnext : nextIndex ((s.others (probe + 1)).foldl CounterStep.apply
            (valueAt s.others value probe)) = valueAt s.others value (probe + 1) := rfl
        rcases ih hnext hgrown (by omega) (by omega) with hfound | ⟨hnone, hall⟩
        · exact .inl hfound
        · refine .inr ⟨hnone, fun later hfrom hto => ?_⟩
          rcases Nat.eq_or_lt_of_le hfrom with rfl | hlater
          · exact ⟨config, hconfig, hblocked⟩
          · exact hall later hlater hto

private theorem fetchNext_spec (hne : configs ≠ []) (s : Surroundings) (counter : Nat) :
    (∃ later < configs.length, ∃ config,
        configs[(valueAt s.others counter later + configs.length - 1) % configs.length]? =
          some config ∧
        s.blocked later config = false ∧ fetchNext configs s counter = .ok (some config)) ∨
      fetchNext configs s counter = .ok none ∧ ∀ later < configs.length, ∃ config,
        configs[(valueAt s.others counter later + configs.length - 1) % configs.length]? =
          some config ∧ s.blocked later config = true := by
  have hstart : nextIndex ((s.others 0).foldl CounterStep.apply counter) =
      valueAt s.others counter 0 := rfl
  rcases fetchFrom_spec hne hstart List.length_nil (List.length_pos_iff.mpr hne) with
    hfound | ⟨hnone, hall⟩
  · exact .inl hfound
  · exact .inr ⟨hnone, fun later => hall later (Nat.zero_le later)⟩

/-- Whatever is in cooldown or does not comply, the search finds a configuration that is free
unless all are blocked, if and only if its probes fall on every configuration. -/
theorem finds_available_iff (configs : List LoadBalancingConfig) (hne : configs ≠ [])
    (others : Nat → List CounterStep) (counter : Nat) :
    (∀ inCooldown compliant, FindsAvailable configs ⟨others, inCooldown, compliant⟩ counter) ↔
      Covers configs others counter := by
  constructor
  · intro h config hmem
    by_contra hmiss
    -- only the configuration that no probe falls on is free
    obtain ⟨s, hothers, hblocked⟩ : ∃ s : Surroundings, s =
          ⟨others, fun _ c => decide (c ≠ config), fun _ _ => true⟩ ∧
        ∀ later c, s.blocked later c = decide (c ≠ config) := by
      refine ⟨_, rfl, fun later c => ?_⟩
      rw [Surroundings.blocked]
      cases c.credentialId with
      | none => exact Bool.or_false _
      | some credentialId => simp
    have hfree : FindsAvailable configs s counter := hothers ▸ h _ _
    have hsame : s.others = others := by rw [hothers]
    rcases fetchNext_spec hne s counter with ⟨later, hlater, c, hc, hcfree, -⟩ | ⟨hnone, -⟩
    · rw [hblocked, decide_eq_false_iff_not, not_not] at hcfree
      exact hmiss ⟨later, hlater, hcfree ▸ hsame ▸ hc⟩
    · rw [FindsAvailable, hnone] at hfree
      obtain ⟨later, -, hc⟩ := hfree config hmem
      rw [hblocked] at hc
      exact of_decide_eq_true hc rfl
  · intro hcovers inCooldown compliant
    rw [FindsAvailable]
    rcases fetchNext_spec hne ⟨others, inCooldown, compliant⟩ counter with
      ⟨later, hlater, c, hc, hcfree, hfound⟩ | ⟨hnone, hall⟩
    · rw [hfound]
      exact ⟨List.mem_of_getElem? hc, later, hlater, hcfree⟩
    · rw [hnone]
      intro config hmem
      obtain ⟨later, hlater, hhit⟩ := hcovers config hmem
      obtain ⟨c, hc, hcblocked⟩ := hall later hlater
      rw [hhit] at hc
      cases hc
      exact ⟨later, hlater, hcblocked⟩

/-- Without other callers and below the limit of the counter the probes fall on every
configuration. -/
theorem covers_undisturbed (configs : List LoadBalancingConfig) {counter : Nat}
    (hlimit : counter + configs.length < 10000000) :
    Covers configs (fun _ => []) counter := by
  have hvalue (probe : Nat) (hprobe : probe < configs.length) :
      valueAt (fun _ => []) counter probe = counter + probe + 1 := by
    induction probe with
    | zero => exact if_neg (show ¬ 10000000 ≤ counter + 1 by omega)
    | succ probe ih =>
      rw [valueAt, ih (by omega)]
      exact if_neg (by simp only [List.foldl_nil]; omega)
  intro config hmem
  obtain ⟨i, hi, rfl⟩ := List.mem_iff_getElem.mp hmem
  have hpos : 0 < configs.length := by omega
  have hlt := Nat.mod_lt counter hpos
  refine ⟨(i + (configs.length - counter % configs.length)) % configs.length,
    Nat.mod_lt _ hpos, ?_⟩
  rw [hvalue _ (Nat.mod_lt _ hpos)]
  have hindex : (counter + (i + (configs.length - counter % configs.length)) % configs.length + 1 +
      configs.length - 1) % configs.length = i := by
    calc _ = (counter + (i + (configs.length - counter % configs.length)) % configs.length +
          configs.length) % configs.length := by congr 1; omega
      _ = (counter + (i + (configs.length - counter % configs.length))) % configs.length := by
        rw [Nat.add_mod_right, Nat.add_mod_mod]
      _ = (counter % configs.length + (i + (configs.length - counter % configs.length))) %
          configs.length := by rw [Nat.mod_add_mod]
      _ = (i + configs.length) % configs.length := by congr 1; omega
      _ = i := by rw [Nat.add_mod_right, Nat.mod_eq_of_lt hi]
  rw [hindex]
  exact List.getElem?_eq_getElem hi

theorem finds_available_iff_pair :
    FindsAvailable [⟨"a", none⟩, ⟨"b", none⟩]
      ⟨fun _ => [], fun _ config => config.id = "a", fun _ _ => true⟩ 5 :=
  (finds_available_iff [⟨"a", none⟩, ⟨"b", none⟩] (List.cons_ne_nil _ _) (fun _ => []) 5).mpr
    (covers_undisturbed _ (by decide)) _ _

/-- Another caller's increment between the probes, or the limit of the counter, makes both probes
fall on the configuration in cooldown. -/
theorem free_not_found :
    ¬ FindsAvailable [⟨"a", none⟩, ⟨"b", none⟩] ⟨fun probe => if probe = 1 then [.incr] else [],
      fun _ config => config.id = "a", fun _ _ => true⟩ 0 ∧
    ¬ FindsAvailable [⟨"a", none⟩, ⟨"b", none⟩] ⟨fun _ => [],
      fun _ config => config.id = "a", fun _ _ => true⟩ 9999998 := by
  constructor
  · intro h
    rw [FindsAvailable, fetchNext, fetchFrom] at h
    simp [nextIndex, realIndex, item, fetchFrom, Surroundings.blocked, CounterStep.apply] at h
  · intro h
    rw [FindsAvailable, fetchNext, fetchFrom] at h
    simp [nextIndex, realIndex, item, fetchFrom, Surroundings.blocked] at h

end PlatformSpec.Service.LoadBalancing
