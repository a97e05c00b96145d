import Mathlib.Data.List.Basic

/-!
# Values on the queue of a tenant

Models `TaskWrapper`, `push_tasks` and `pull_tasks` of `core/rag/pipeline/queue.py`: strings are
stored as they are, other values in a JSON wrapper, and an empty element ends a pull. The JSON
texts of the wrapper are those of a library.
-/

namespace PlatformSpec.Indexing

/-- A task: a string or another value that JSON knows. -/
inductive Task (υ : Type) where
  | str (s : String)
  | other (value : υ)
  deriving DecidableEq

/-- `TaskWrapper`: `model_dump_json` with the `data` of a value, and the `data` that
`model_validate_json` reads, unless it raises. -/
structure TaskWrapper (υ : Type) where
  serialize : υ → String
  deserialize : String → Option (Task υ)
  deserialize_serialize : ∀ value, deserialize (serialize value) = some (.other value)
  deserialize_empty : deserialize "" = none
  /-- A string in an object is shorter than the text of the object. -/
  length_lt : ∀ text s, deserialize text = some (.str s) → s.length < text.length

variable {υ : Type}

namespace TaskWrapper

variable (w : TaskWrapper υ)

/-- What `push_tasks` stores for a task. -/
def stored : Task υ → String
  | .str s => s
  | .other value => w.serialize value

/-- What `pull_tasks` returns for an element: the data of a wrapper, or the raw string. -/
def decoded (serializedTask : String) : Task υ :=
  match w.deserialize serializedTask with
  | some data => data
  | none => .str serializedTask

/-- `lpush`: each value goes to the left end of the list. -/
def lpush (queue values : List String) : List String := values.foldl (fun q v => v :: q) queue

/-- `push_tasks`. -/
def pushTasks (queue : List String) (tasks : List (Task υ)) : List String :=
  if tasks.map w.stored = [] then queue else lpush queue (tasks.map w.stored)

/-- The loop of `pull_tasks`: elements are taken from the right end. -/
def pullLoop : Nat → List (Task υ) → List String → List (Task υ) × List String
  | 0, tasks, queue => (tasks, queue)
  | n + 1, tasks, queue =>
    match queue.getLast? with
    | none => (tasks, queue)
    | some serializedTask =>
      if serializedTask = "" then (tasks, queue.dropLast)
      else pullLoop n (tasks ++ [w.decoded serializedTask]) queue.dropLast

/-- `pull_tasks`. -/
def pullTasks (queue : List String) (count : Int) : List (Task υ) × List String :=
  if count ≤ 0 then ([], queue) else w.pullLoop count.toNat [] queue

end TaskWrapper

/-- A call of the queue. -/
inductive QueueCall (υ : Type) where
  | pushTasks (tasks : List (Task υ))
  | pullTasks (count : Int)

/-- The list in Redis and the tasks pulled so far. -/
structure QueueRun (υ : Type) where
  queue : List String := []
  pulled : List (Task υ) := []

namespace TaskWrapper

variable (w : TaskWrapper υ)

/-- One call. -/
def call (r : QueueRun υ) : QueueCall υ → QueueRun υ
  | .pushTasks tasks => { r with queue := w.pushTasks r.queue tasks }
  | .pullTasks count =>
    let (tasks, queue) := w.pullTasks r.queue count
    ⟨queue, r.pulled ++ tasks⟩

/-- Calls one after the other. -/
def run (calls : List (QueueCall υ)) : QueueRun υ := calls.foldl w.call {}

end TaskWrapper

/-- All tasks that are pushed, in their order. -/
def pushedTasks (calls : List (QueueCall υ)) : List (Task υ) :=
  calls.flatMap fun
    | .pushTasks tasks => tasks
    | .pullTasks _ => []

namespace TaskWrapper

variable {w : TaskWrapper υ}

/-! ## Order -/

/-- The elements stored are those taken so far, of which the empty ones are dropped, and those in
the list. -/
def Accounts (w : TaskWrapper υ) (stored : List String) (r : QueueRun υ) : Prop :=
  ∃ taken, stored = taken ++ r.queue.reverse ∧ r.pulled = (taken.filter (· ≠ "")).map w.decoded

theorem Accounts.start : Accounts w [] {} := ⟨[], rfl, rfl⟩

theorem reverse_lpush (queue values : List String) :
    (lpush queue values).reverse = queue.reverse ++ values := by
  induction values generalizing queue with
  | nil => exact (List.append_nil _).symm
  | cons v values ih =>
    rw [lpush, List.foldl_cons, ← lpush, ih, List.reverse_cons, List.append_assoc]
    rfl

theorem reverse_pushTasks (queue : List String) (tasks : List (Task υ)) :
    (w.pushTasks queue tasks).reverse = queue.reverse ++ tasks.map w.stored := by
  rw [pushTasks]
  split
  · next hnil => rw [hnil, List.append_nil]
  · exact reverse_lpush _ _

/-- A pull takes elements from the front and returns those that are not empty. -/
theorem pullLoop_taken (n : Nat) (tasks : List (Task υ)) (queue : List String) :
    ∃ taken, queue.reverse = taken ++ (w.pullLoop n tasks queue).2.reverse ∧
      (w.pullLoop n tasks queue).1 = tasks ++ (taken.filter (· ≠ "")).map w.decoded := by
  induction n generalizing tasks queue with
  | zero => exact ⟨[], rfl, (List.append_nil _).symm⟩
  | succ n ih =>
    rw [pullLoop]
    cases hlast : queue.getLast? with
    | none => exact ⟨[], rfl, (List.append_nil _).symm⟩
    | some text =>
      obtain ⟨front, rfl⟩ := List.getLast?_eq_some_iff.mp hlast
      rw [List.dropLast_concat, List.reverse_append]
      dsimp only
      split
      · next hempty => exact ⟨[text], rfl, by rw [hempty]; exact (List.append_nil _).symm⟩
      · next hfull =>
        obtain ⟨taken, hqueue, htasks⟩ := ih (tasks ++ [w.decoded text]) front
        refine ⟨text :: taken, ?_, ?_⟩
        · rw [hqueue]
          rfl
        · have hkeep : (text :: taken).filter (fun t => decide (t ≠ "")) =
              text :: taken.filter fun t => decide (t ≠ "") :=
            List.filter_cons_of_pos (decide_eq_true hfull)
          rw [htasks, hkeep, List.map_cons]
          exact (List.append_cons _ _ _).symm

theorem pullTasks_taken (queue : List String) (count : Int) :
    ∃ taken, queue.reverse = taken ++ (w.pullTasks queue count).2.reverse ∧
      (w.pullTasks queue count).1 = (taken.filter (· ≠ "")).map w.decoded := by
  rw [pullTasks]
  split
  · exact ⟨[], rfl, rfl⟩
  · exact pullLoop_taken _ [] _

variable {stored queue : List String}

theorem Accounts.call {r : QueueRun υ} (h : Accounts w stored r)
    (c : QueueCall υ) : Accounts w (stored ++ (pushedTasks [c]).map w.stored) (w.call r c) := by
  obtain ⟨taken, hstored, hpulled⟩ := h
  cases c with
  | pushTasks tasks =>
    refine ⟨taken, ?_, hpulled⟩
    rw [TaskWrapper.call, reverse_pushTasks, hstored, List.append_assoc, pushedTasks,
      List.flatMap_singleton]
  | pullTasks count =>
    obtain ⟨later, hqueue, htasks⟩ := pullTasks_taken (w := w) r.queue count
    refine ⟨taken ++ later, ?_, ?_⟩
    · rw [hstored, hqueue, ← List.append_assoc]
      exact List.append_nil _
    · rw [List.filter_append, List.map_append, ← hpulled, ← htasks]
      rfl

theorem Accounts.calls {r : QueueRun υ} (h : Accounts w stored r)
    (calls : List (QueueCall υ)) :
    Accounts w (stored ++ (pushedTasks calls).map w.stored) (calls.foldl w.call r) := by
  induction calls generalizing stored r with
  | nil =>
    rw [pushedTasks, List.flatMap_nil, List.map_nil, List.append_nil]
    exact h
  | cons c calls ih =>
    have hpushed : pushedTasks (c :: calls) = pushedTasks [c] ++ pushedTasks calls := by
      rw [← List.singleton_append]
      exact List.flatMap_append
    rw [hpushed, List.map_append, ← List.append_assoc]
    exact ih (h.call c)

theorem run_accounts (calls : List (QueueCall υ)) :
    Accounts w ((pushedTasks calls).map w.stored) (w.run calls) :=
  Accounts.start.calls calls

/-! ## Values -/

theorem serialize_ne_empty (value : υ) : w.serialize value ≠ "" := by
  intro h
  have hback := w.deserialize_serialize value
  rw [h, w.deserialize_empty] at hback
  cases hback

theorem decoded_str_iff {s : String} : w.decoded s = .str s ↔ w.deserialize s = none := by
  rw [decoded]
  cases hread : w.deserialize s with
  | none => exact ⟨fun _ => rfl, fun _ => rfl⟩
  | some data =>
    constructor
    · intro h
      replace h : data = .str s := h
      rw [h] at hread
      exact absurd (w.length_lt s s hread) (Nat.lt_irrefl _)
    · intro h
      cases h

theorem decoded_serialize (value : υ) : w.decoded (w.serialize value) = .other value := by
  rw [decoded, w.deserialize_serialize]

variable {tasks : List (Task υ)}

theorem stored_ne_empty_and_decoded_iff :
    ((∀ text ∈ tasks.map w.stored, text ≠ "") ∧ (tasks.map w.stored).map w.decoded = tasks) ↔
      ∀ s, .str s ∈ tasks → s ≠ "" ∧ w.deserialize s = none := by
  have hsame : (tasks.map w.stored).map w.decoded = tasks ↔
      ∀ task ∈ tasks, w.decoded (w.stored task) = task := by
    conv_lhs => rw [List.map_map]; rhs; rw [← List.map_id tasks]
    exact List.map_inj_left
  rw [hsame]
  constructor
  · rintro ⟨hfull, hback⟩ s hs
    exact ⟨hfull _ (List.mem_map_of_mem (f := w.stored) hs), decoded_str_iff.mp (hback _ hs)⟩
  · intro h
    constructor
    · intro text htext
      obtain ⟨task, htask, rfl⟩ := List.mem_map.mp htext
      cases task with
      | str s => exact (h s htask).1
      | other value => exact serialize_ne_empty value
    · intro task htask
      cases task with
      | str s => exact decoded_str_iff.mpr (h s htask).2
      | other value => exact decoded_serialize value

theorem pullLoop_all {n : Nat} (hfull : ∀ text ∈ queue, text ≠ "") (hn : queue.length ≤ n) :
    (w.pullLoop n tasks queue).2 = [] := by
  induction n generalizing tasks queue with
  | zero => exact List.length_eq_zero_iff.mp (Nat.le_zero.mp hn)
  | succ n ih =>
    rw [pullLoop]
    cases hlast : queue.getLast? with
    | none => exact List.getLast?_eq_none_iff.mp hlast
    | some text =>
      obtain ⟨front, rfl⟩ := List.getLast?_eq_some_iff.mp hlast
      dsimp only
      rw [if_neg (hfull text (List.mem_append_right _ List.mem_cons_self)), List.dropLast_concat]
      apply ih
      · exact fun t ht => hfull t (List.mem_append_left _ ht)
      · rw [List.length_append, List.length_singleton] at hn
        exact Nat.le_of_succ_le_succ hn

theorem pullTasks_all {count : Int} (hfull : ∀ text ∈ queue, text ≠ "")
    (hcount : (queue.length : Int) ≤ count) : (w.pullTasks queue count).2 = [] := by
  rw [pullTasks]
  split
  · have hzero : queue.length = 0 := by omega
    exact List.length_eq_zero_iff.mp hzero
  · exact pullLoop_all hfull (by omega)

/-! ## What comes back -/

/-- The tasks pulled, followed by those of a large enough pull, are the tasks pushed if and only if
no string pushed is empty or is read as a wrapper. -/
theorem returns_pushed_iff (w : TaskWrapper υ) (calls : List (QueueCall υ)) :
    (∀ count : Int, (pushedTasks calls).length ≤ count →
      (w.run calls).pulled ++ (w.pullTasks (w.run calls).queue count).1 = pushedTasks calls) ↔
      ∀ s, .str s ∈ pushedTasks calls → s ≠ "" ∧ w.deserialize s = none := by
  obtain ⟨taken, hstored, hpulled⟩ := run_accounts (w := w) calls
  rw [← stored_ne_empty_and_decoded_iff]
  have hfinal (count : Int) : ∃ later, (pushedTasks calls).map w.stored =
      (taken ++ later) ++ (w.pullTasks (w.run calls).queue count).2.reverse ∧
      (w.run calls).pulled ++ (w.pullTasks (w.run calls).queue count).1 =
        ((taken ++ later).filter (· ≠ "")).map w.decoded := by
    obtain ⟨later, hqueue, htasks⟩ := pullTasks_taken (w := w) (w.run calls).queue count
    refine ⟨later, ?_, ?_⟩
    · rw [hstored, hqueue, List.append_assoc]
    · rw [hpulled, htasks, List.filter_append, List.map_append]
  constructor
  · intro h
    obtain ⟨later, hall, htotal⟩ := hfinal _
    have hback := htotal.symm.trans (h _ (Int.le_refl _))
    -- as many tasks come back as elements were stored
    have hlengths := congrArg List.length hback
    have hstoredLength := congrArg List.length hall
    rw [List.length_map] at hlengths hstoredLength
    rw [List.length_append] at hstoredLength
    have hle := List.length_filter_le (fun text => decide (text ≠ "")) (taken ++ later)
    have hfilter : (taken ++ later).filter (· ≠ "") = taken ++ later :=
      List.filter_sublist.eq_of_length (by omega)
    have hrest : (w.pullTasks (w.run calls).queue (pushedTasks calls).length).2.reverse = [] :=
      List.length_eq_zero_iff.mp (by omega)
    rw [hrest, List.append_nil] at hall
    rw [hfilter, ← hall] at hback
    refine ⟨fun text htext => ?_, hback⟩
    rw [hall, ← hfilter] at htext
    exact of_decide_eq_true (List.mem_filter.mp htext).2
  · rintro ⟨hfull, hback⟩ count hcount
    obtain ⟨later, hall, htotal⟩ := hfinal count
    have hqueue : ∀ text ∈ (w.run calls).queue, text ≠ "" := by
      intro text htext
      apply hfull
      rw [hstored]
      exact List.mem_append_right _ (List.mem_reverse.mpr htext)
    have hlength : ((w.run calls).queue.length : Int) ≤ count := by
      have hsame := congrArg List.length hstored
      rw [List.length_map, List.length_append, List.length_reverse] at hsame
      omega
    rw [pullTasks_all hqueue hlength, List.reverse_nil, List.append_nil] at hall
    rw [htotal, ← hall, List.filter_eq_self.mpr fun text htext => decide_eq_true (hfull text htext),
      hback]

/-- A wrapper for truth values, which also reads one string. -/
private def sample : TaskWrapper Bool where
  serialize value := if value then "\x7b\"data\":true\x7d" else "\x7b\"data\":false\x7d"
  deserialize text :=
    if text = "\x7b\"data\":true\x7d" then some (.other true)
    else if text = "\x7b\"data\":false\x7d" then some (.other false)
    else if text = "\x7b\"data\":\"x\"\x7d" then some (.str "x")
    else none
  deserialize_serialize value := by cases value <;> rfl
  deserialize_empty := rfl
  length_lt text s h := by
    split at h
    · cases h
    · split at h
      · cases h
      · split at h
        · next htext =>
          cases h
          rw [htext]
          decide
        · cases h

/-- A string that is a wrapper comes back as the string in it, and an empty string is lost and ends
the pull before the strings after it. -/
theorem strings_not_returned :
    (sample.run [.pushTasks [.str "\x7b\"data\":\"x\"\x7d"], .pullTasks 1]).pulled = [.str "x"] ∧
    (sample.run [.pushTasks [.str "", .str "a"], .pullTasks 2]).pulled = [] ∧
    ¬ (∀ count : Int, 2 ≤ count →
      (sample.run [.pushTasks [.str "", .str "a"]]).pulled ++
        (sample.pullTasks (sample.run [.pushTasks [.str "", .str "a"]]).queue count).1 =
          pushedTasks [.pushTasks [.str "", .str "a"]]) := by
  refine ⟨by decide, by decide, fun h => ?_⟩
  have htwo := h 2 (Int.le_refl _)
  revert htwo
  decide

end TaskWrapper
end PlatformSpec.Indexing
