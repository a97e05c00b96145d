import PlatformSpec.Base.Interleaving

/-!
# Concurrent updates of one value

Every process loads a shared value, computes a new one and saves it; some hold a lock
meanwhile. When no save changes what an update under way computes, the updates have the
effect of running one after another in the order of their saves. Nothing here mentions a
particular system.
-/

namespace PlatformSpec.Base.Update

universe u v w x

variable {ω : Type u} {τ : Type v} {ε : Type w}

/-- The shared value and the lock. -/
structure Cell (τ : Type v) where
  value : τ
  lock : Bool := false

/-- Where an update is: not begun, holding the lock, past its load, past its save and still
holding the lock, or ended. -/
inductive Place (ω : Type u) (τ : Type v) (ε : Type w) where
  | called (op : ω)
  | locked (op : ω)
  | loaded (op : ω) (value : τ)
  | releasing (op : ω) (error : Option ε)
  | ended (op : ω) (error : Option ε)

/-- The steps of an update. -/
inductive Action where
  | acquire
  | load
  | save
  | release
  deriving DecidableEq

variable (locks : ω → Bool) (perform : ω → τ → Except ε τ)

/-- What follows a save. -/
def afterSave (op : ω) (error : Option ε) : Place ω τ ε :=
  if locks op then .releasing op error else .ended op error

/-- One step of an update. An update that fails saves nothing and releases its lock. -/
def act (c : Cell τ) : Place ω τ ε → Action → Option (Cell τ × Place ω τ ε)
  | .called op, .acquire =>
    if locks op && !c.lock then some ({ c with lock := true }, .locked op) else none
  | .called op, .load => if locks op then none else some (c, .loaded op c.value)
  | .locked op, .load => some (c, .loaded op c.value)
  | .loaded op value, .save =>
    match perform op value with
    | .ok value' => some ({ c with value := value' }, afterSave locks op none)
    | .error e => some (c, afterSave locks op (some e))
  | .releasing op e, .release => some ({ c with lock := false }, .ended op e)
  | _, _ => none

/-- Updates running concurrently. -/
abbrev Updates (ω : Type u) (τ : Type v) (ε : Type w) (ι : Type x) :=
  Processes (Cell τ) ι (Place ω τ ε)

/-- An update that runs alone: a failure leaves the value unchanged. -/
def alone (op : ω) (value : τ) : τ :=
  match perform op value with
  | .ok value' => value'
  | .error _ => value

namespace Place

/-- The operation of an update. -/
def op : Place ω τ ε → ω
  | .called op | .locked op | .loaded op _ | .releasing op _ | .ended op _ => op

/-- The update has saved. -/
def saved : Place ω τ ε → Bool
  | .releasing _ _ | .ended _ _ => true
  | _ => false

/-- The update holds the lock. -/
def holds (locks : ω → Bool) : Place ω τ ε → Bool
  | .locked _ | .releasing _ _ => true
  | .loaded op _ => locks op
  | _ => false

end Place

variable {ι : Type x} [DecidableEq ι]

/-- One step of one update. -/
def step : Updates ω τ ε ι → ι × Action → Option (Updates ω τ ε ι) :=
  Processes.step fun _ => act locks perform

/-- Updates none of which has begun. -/
def start (ops : ι → ω) (value : τ) : Updates ω τ ε ι := ⟨⟨value, false⟩, fun i => .called (ops i)⟩

/-- A save leaves the results of the updates under way as they were; nothing is asked of two
updates that both hold the lock. -/
def SaveHarmless (s : Updates ω τ ε ι) : ι × Action → Prop
  | (i, .save) => ∀ op value value', s.place i = .loaded op value →
      perform op value = .ok value' → ∀ j opⱼ valueⱼ, j ≠ i → s.place j = .loaded opⱼ valueⱼ →
        ¬ (locks op ∧ locks opⱼ) → perform opⱼ value' = perform opⱼ valueⱼ
  | _ => True

/-- The updates that have saved, in the order of their saves, account for the value; an update
under way would compute the same from the present value; at most one holds the lock. -/
private structure Serial (ops : ι → ω) (value : τ) (s : Updates ω τ ε ι) (order : List ι) :
    Prop where
  op : ∀ i, (s.place i).op = ops i
  nodup : order.Nodup
  mem : ∀ i, i ∈ order ↔ (s.place i).saved
  value : s.shared.value = order.foldl (fun v i => alone perform (ops i) v) value
  fresh : ∀ i op v, s.place i = .loaded op v → perform op s.shared.value = perform op v
  lock : ∀ i, (s.place i).holds locks → s.shared.lock = true
  unique : ∀ i j, (s.place i).holds locks → (s.place j).holds locks → i = j

variable {locks perform}

private theorem holds_of_update {place : ι → Place ω τ ε} {i j : ι} {l : Place ω τ ε}
    (h : (Function.update place i l j).holds locks) :
    j = i ∧ l.holds locks ∨ (place j).holds locks :=
  (Processes.of_update (P := fun l : Place ω τ ε => l.holds locks) h).imp_right And.right

variable {ops : ι → ω} {s : Updates ω τ ε ι} {value : τ} {order : List ι}

private theorem Serial.move
    (h : Serial locks perform ops value s order) {i : ι} {l : Place ω τ ε} {lock : Bool}
    (hop : l.op = (s.place i).op) (hsaved : l.saved = (s.place i).saved)
    (hfresh : ∀ op v, l = .loaded op v → v = s.shared.value)
    (hlock : ∀ j, (Function.update s.place i l j).holds locks → lock = true)
    (hholds : l.holds locks → ∀ j, (s.place j).holds locks → j = i) :
    Serial locks perform ops value ⟨{ s.shared with lock }, Function.update s.place i l⟩ order := by
  refine ⟨fun j => ?_, h.nodup, fun j => ?_, h.value, fun j op v hj => ?_, hlock, ?_⟩
  · by_cases hj : j = i
    · rw [hj, Processes.place_update_self, hop]
      exact h.op i
    · rw [Processes.place_update_of_ne _ _ hj]
      exact h.op j
  · by_cases hj : j = i
    · rw [hj, Processes.place_update_self, hsaved]
      exact h.mem i
    · rw [Processes.place_update_of_ne _ _ hj]
      exact h.mem j
  · rcases Processes.of_update (P := fun l : Place ω τ ε => l = .loaded op v) hj with
      ⟨-, hj⟩ | ⟨-, hj⟩
    · rw [hfresh op v hj]
    · exact h.fresh j op v hj
  · intro j k hj hk
    rcases holds_of_update hj with ⟨rfl, hl⟩ | hold
    · rcases holds_of_update hk with ⟨rfl, -⟩ | hk
      · rfl
      · exact (hholds hl k hk).symm
    · rcases holds_of_update hk with ⟨rfl, hl⟩ | hk
      · exact hholds hl j hold
      · exact h.unique j k hold hk

private theorem afterSave_spec (op : ω) (e : Option ε) {place : Place ω τ ε}
    (hplace : place = afterSave locks op e) : place.op = op ∧ place.saved ∧
      (∀ opⱼ vⱼ, place ≠ .loaded opⱼ vⱼ) ∧ (place.holds locks → locks op) := by
  rw [hplace]
  unfold afterSave
  split
  next hlocks => exact ⟨rfl, rfl, by simp, fun _ => hlocks⟩
  next => exact ⟨rfl, rfl, by simp, fun hfalse => by cases hfalse⟩

private theorem Serial.save
    (h : Serial locks perform ops value s order) {i : ι} {op : ω} {v v' : τ} {e : Option ε}
    (hi : s.place i = .loaded op v) (hv : v' = alone perform op s.shared.value)
    (hfresh : ∀ j opⱼ vⱼ, j ≠ i → s.place j = .loaded opⱼ vⱼ →
      ¬ (locks op ∧ locks opⱼ) → perform opⱼ v' = perform opⱼ vⱼ) :
    Serial locks perform ops value
      ⟨{ s.shared with value := v' }, Function.update s.place i (afterSave locks op e)⟩
      (order ++ [i]) := by
  have hops : op = ops i := by
    rw [← h.op i, hi]
    rfl
  obtain ⟨place, hplace⟩ : ∃ place : Place ω τ ε, place = afterSave locks op e := ⟨_, rfl⟩
  rw [← hplace]
  obtain ⟨hop, hsaved, hnot, hheld⟩ := afterSave_spec op e hplace
  have hholds : place.holds locks → (s.place i).holds locks := by
    rw [hi]
    exact hheld
  have hback : ∀ j, (Function.update s.place i place j).holds locks →
      (s.place j).holds locks := by
    intro j hj
    rcases holds_of_update hj with ⟨rfl, hl⟩ | hj
    · exact hholds hl
    · exact hj
  have hnotMem : i ∉ order := by
    intro hmem
    have hold := (h.mem i).mp hmem
    rw [hi] at hold
    cases hold
  refine ⟨fun j => ?_, ?_, fun j => ?_, ?_, fun j opⱼ vⱼ hj => ?_, fun j hj =>
    h.lock j (hback j hj),
    fun j k hj hk => h.unique j k (hback j hj) (hback k hk)⟩
  · by_cases hj : j = i
    · rw [hj, Processes.place_update_self, hop, hops]
    · rw [Processes.place_update_of_ne _ _ hj]
      exact h.op j
  · exact List.nodup_append.mpr ⟨h.nodup, List.nodup_singleton i, fun j hj k hk => by
      rw [List.mem_singleton.mp hk]
      rintro rfl
      exact hnotMem hj⟩
  · by_cases hj : j = i
    · subst hj
      rw [Processes.place_update_self]
      simp [hsaved]
    · rw [Processes.place_update_of_ne _ _ hj, ← h.mem j]
      simp [hj]
  · rw [List.foldl_append, ← h.value, List.foldl_cons, List.foldl_nil, ← hops]
    exact hv
  · rcases Processes.of_update (P := fun l : Place ω τ ε => l = .loaded opⱼ vⱼ) hj with
      ⟨-, hj⟩ | ⟨hne, hj⟩
    · exact absurd hj (hnot opⱼ vⱼ)
    · refine hfresh j opⱼ vⱼ hne hj fun hboth => hne (h.unique j i ?_ ?_)
      · rw [hj]
        exact hboth.2
      · rw [hi]
        exact hboth.1

private theorem Serial.step {s' : Updates ω τ ε ι}
    (h : Serial locks perform ops value s order) {a : ι × Action}
    (ha : SaveHarmless locks perform s a) (hstep : Update.step locks perform s a = some s') :
    ∃ order', Serial locks perform ops value s' order' := by
  obtain ⟨i, a⟩ := a
  obtain ⟨c, l, hact, rfl⟩ := Processes.step_eq_some.mp hstep
  -- A step that leaves the lock alone and takes no hold of it.
  have hquiet : ∀ l : Place ω τ ε, (l.holds locks → (s.place i).holds locks) →
      (∀ j, (Function.update s.place i l j).holds locks → s.shared.lock = true) ∧
        (l.holds locks → ∀ j, (s.place j).holds locks → j = i) := by
    refine fun l hl => ⟨fun j hj => ?_, fun hnew j hj => h.unique j i hj (hl hnew)⟩
    rcases holds_of_update hj with ⟨-, hnew⟩ | hold
    · exact h.lock i (hl hnew)
    · exact h.lock j hold
  unfold act at hact
  split at hact
  next op hi =>
    split at hact
    next hfree =>
      cases hact
      have hnone : ∀ j, ¬ (s.place j).holds locks := by
        intro j hj
        rw [h.lock j hj] at hfree
        simp at hfree
      exact ⟨order, h.move (by rw [hi]; rfl) (by rw [hi]; rfl) (fun _ _ hl => by cases hl)
        (fun _ _ => rfl) fun _ j hj => absurd hj (hnone j)⟩
    next => cases hact
  next op hi =>
    split at hact
    next => cases hact
    next hlocks =>
      cases hact
      obtain ⟨hlock, hholds⟩ := hquiet (.loaded op s.shared.value) fun hl => absurd hl hlocks
      exact ⟨order, h.move (by rw [hi]; rfl) (by rw [hi]; rfl)
        (fun _ _ hl => by cases hl; rfl) hlock hholds⟩
  next op hi =>
    cases hact
    obtain ⟨hlock, hholds⟩ := hquiet (.loaded op s.shared.value) fun _ => by
      rw [hi]
      rfl
    exact ⟨order, h.move (by rw [hi]; rfl) (by rw [hi]; rfl)
      (fun _ _ hl => by cases hl; rfl) hlock hholds⟩
  next op v hi =>
    have hfresh := h.fresh i op v hi
    split at hact
    next v' hok =>
      cases hact
      refine ⟨order ++ [i], h.save hi ?_ fun j opⱼ vⱼ hj hplace hboth => ?_⟩
      · rw [alone, hfresh, hok]
      · exact ha op v v' hi hok j opⱼ vⱼ hj hplace hboth
    next e hfailed =>
      cases hact
      refine ⟨order ++ [i], h.save hi ?_ fun j opⱼ vⱼ _ hplace _ => h.fresh j opⱼ vⱼ hplace⟩
      rw [alone, hfresh, hfailed]
  next op e hi =>
    cases hact
    have hothers : ∀ j, ¬ (Function.update s.place i (.ended op e) j).holds locks := by
      intro j hj
      rcases Processes.of_update (P := fun l : Place ω τ ε => l.holds locks) hj with
        ⟨-, hnew⟩ | ⟨hne, hold⟩
      · cases hnew
      · refine hne (h.unique j i hold ?_)
        rw [hi]
        rfl
    exact ⟨order, h.move (by rw [hi]; rfl) (by rw [hi]; rfl) (fun _ _ hl => by cases hl)
      (fun j hj => absurd hj (hothers j)) fun hl => by cases hl⟩
  next => cases hact

omit [DecidableEq ι] in
private theorem serial_start (ops : ι → ω) (value : τ) :
    Serial locks perform ops value (start ops value : Updates ω τ ε ι) [] := by
  refine ⟨fun _ => rfl, List.nodup_nil, fun _ => by simp [start, Place.saved], rfl, ?_, ?_, ?_⟩
  · intro i op v hi
    cases hi
  · intro i hi
    cases hi
  · intro i j hi
    cases hi

/-- When no save changes what an update under way computes, the updates that have saved had
the effect of running one after another, in some order. -/
theorem serializable {as : List (ι × Action)}
    (hrun : run (step locks perform) (start ops value) as = some s)
    (hall : ∀ pre a post m, as = pre ++ a :: post →
      run (step locks perform) (start ops value) pre = some m →
      SaveHarmless locks perform m a) :
    ∃ order : List ι, order.Nodup ∧ (∀ i, i ∈ order ↔ (s.place i).saved) ∧
      s.shared.value = order.foldl (fun v i => alone perform (ops i) v) value := by
  obtain ⟨order, h⟩ := run_induction (SaveHarmless locks perform)
    (P := fun m => ∃ order, Serial locks perform ops value m order)
    (fun m a m' hm ha hstep => hm.elim fun _ h => h.step ha hstep)
    ⟨[], serial_start ops value⟩ hall hrun
  exact ⟨order, h.nodup, h.mem, h.value⟩

end PlatformSpec.Base.Update
